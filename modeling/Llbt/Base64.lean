import Mathlib

/-!
# Base64 (`util/base64.cpp`)

`base64_encode` writes four characters for every three bytes and pads the last four with `=`.
`base64_decode` skips whitespace, and for input without `=` takes the number of missing padding
characters from the length of the input, in which it counts whitespace too.

* `decode_spec` — what was encoded is decoded; whitespace in an encoded string, padded or not, keeps the
  result exactly if the padding is there or the length is still right modulo four; and at most
  `(3n + 3) / 4` bytes are written, except for whole groups of four characters and one `=` behind them.
* `spaces_and_equals` — two spaces behind an encoded string add a byte to the result, and for the input
  `=` two bytes are written into a buffer of one.
-/

set_option autoImplicit false

namespace Llbt.Base64

/-! ## Tables -/

/-- `g_base64_encoding_chars`. -/
def encodingChars : List Char :=
  ['A', 'B', 'C', 'D', 'E', 'F', 'G', 'H', 'I', 'J', 'K', 'L', 'M', 'N', 'O', 'P',
   'Q', 'R', 'S', 'T', 'U', 'V', 'W', 'X', 'Y', 'Z', 'a', 'b', 'c', 'd', 'e', 'f',
   'g', 'h', 'i', 'j', 'k', 'l', 'm', 'n', 'o', 'p', 'q', 'r', 's', 't', 'u', 'v',
   'w', 'x', 'y', 'z', '0', '1', '2', '3', '4', '5', '6', '7', '8', '9', '+', '/']

/-- `g_base64_chars`: the value of a character, or what else it is. -/
def base64Chars : List Nat :=
  [66, 66, 66, 66, 66, 66, 66, 66, 66, 65, 65, 66, 66, 66, 66, 66,
   66, 66, 66, 66, 66, 66, 66, 66, 66, 66, 66, 66, 66, 66, 66, 66,
   65, 66, 66, 66, 66, 66, 66, 66, 66, 66, 66, 62, 66, 62, 66, 63,
   52, 53, 54, 55, 56, 57, 58, 59, 60, 61, 66, 66, 66, 64, 66, 66,
   66,  0,  1,  2,  3,  4,  5,  6,  7,  8,  9, 10, 11, 12, 13, 14,
   15, 16, 17, 18, 19, 20, 21, 22, 23, 24, 25, 66, 66, 66, 66, 63,
   66, 26, 27, 28, 29, 30, 31, 32, 33, 34, 35, 36, 37, 38, 39, 40,
   41, 42, 43, 44, 45, 46, 47, 48, 49, 50, 51, 66, 66, 66, 66, 66] ++ List.replicate 128 66

def equals : Nat := 64
def whitespace : Nat := 65
def invalid : Nat := 66

def indexOfBase64Byte (c : UInt8) : Nat := base64Chars.getD c.toNat invalid

def encodingChar (x : Nat) : UInt8 := UInt8.ofNat (encodingChars.getD x 'A').toNat

def equalsChar : UInt8 := UInt8.ofNat '='.toNat

/-! ## Encoding -/

/-- The four characters of one iteration. -/
def quad (a b c : UInt8) : List UInt8 :=
  let triple := (a.toNat <<< 0x10) + (b.toNat <<< 0x08) + c.toNat
  [encodingChar ((triple >>> (3 * 6)) &&& 0x3F), encodingChar ((triple >>> (2 * 6)) &&& 0x3F),
   encodingChar ((triple >>> (1 * 6)) &&& 0x3F), encodingChar ((triple >>> (0 * 6)) &&& 0x3F)]

/-- The loop of `base64_encode`; bytes behind the end of the input are zero. -/
def encodeLoop : List UInt8 → List UInt8
  | [] => []
  | [a] => quad a 0 0
  | [a, b] => quad a b 0
  | a :: b :: c :: bytes => quad a b c ++ encodeLoop bytes

def base64Encode (bytes : List UInt8) : List UInt8 :=
  let size := 4 * ((bytes.length + 2) / 3)
  let out := encodeLoop bytes
  match bytes.length % 3 with
  | 1 => (out.set (size - 1) equalsChar).set (size - 2) equalsChar
  | 2 => out.set (size - 1) equalsChar
  | _ => out

/-! ## Decoding -/

/-- The variables of `base64_decode`; `out` is what has been stored through `o`. -/
structure State where
  out : List UInt8
  bytesWritten : Nat
  numTrailingEquals : Nat
  buffer : Nat
  bufferSize : Nat

def State.start : State := ⟨[], 0, 0, 0, 0⟩

/-- `& 0xff`, stored as a character. -/
def byte (x : Nat) : UInt8 := UInt8.ofNat (x &&& 0xff)

/-- One character of the input; `none` where the function returns. -/
def step (s : State) (c : UInt8) : Option State :=
  let x := indexOfBase64Byte c
  if x = equals then some { s with numTrailingEquals := s.numTrailingEquals + 1 }
  else if x = whitespace then some s
  else if x = invalid then none
  else if s.numTrailingEquals > 0 then none
  else
    let buffer := ((s.buffer <<< 6) ||| x) % 2 ^ 32
    if s.bufferSize + 1 = 4 then
      some { s with
        out := s.out ++ [byte (buffer >>> 16), byte (buffer >>> 8), byte (buffer >>> 0)]
        bytesWritten := s.bytesWritten + 3
        buffer := 0
        bufferSize := 0 }
    else some { s with buffer := buffer, bufferSize := s.bufferSize + 1 }

/-- The loop: the state in which it ends, and whether all of the input has been read. -/
def decodeLoop : State → List UInt8 → State × Bool
  | s, [] => (s, true)
  | s, c :: input =>
    match step s c with
    | none => (s, false)
    | some s => decodeLoop s input

/-- What has been written to the output, and the number of bytes that is returned. -/
structure Decoded where
  out : List UInt8
  result : Option Nat

/-- The bytes that the caller takes. -/
def Decoded.value (d : Decoded) : Option (List UInt8) := d.result.map d.out.take

/-- The number of padding characters, or how many are missing from input of `size` bytes. -/
def numTrailing (size : Nat) (s : State) : Nat :=
  let extra := size % 4
  if s.numTrailingEquals = 0 ∧ extra > 1 then 4 - extra else s.numTrailingEquals

def trailing (num : Nat) (s : State) : Decoded :=
  if num = 0 then
    if s.bufferSize ≠ 0 then ⟨s.out, none⟩ else ⟨s.out, some s.bytesWritten⟩
  else if num = 1 then
    ⟨s.out ++ [byte (s.buffer >>> 10), byte (s.buffer >>> 2)], some (s.bytesWritten + 2)⟩
  else if num = 2 then ⟨s.out ++ [byte (s.buffer >>> 4)], some (s.bytesWritten + 1)⟩
  else ⟨s.out, none⟩

def base64Decode (input : List UInt8) : Decoded :=
  match decodeLoop State.start input with
  | (s, true) => trailing (numTrailing input.length s) s
  | (s, false) => ⟨s.out, none⟩

/-- The size that the output must have. -/
def requiredBufferLen (size : Nat) : Nat := (size * 3 + 3) / 4

/-! ## Characters -/

def IsData (c : UInt8) : Prop := indexOfBase64Byte c < equals

def isWhitespace (c : UInt8) : Bool := indexOfBase64Byte c = whitespace

def isEquals (c : UInt8) : Bool := indexOfBase64Byte c = equals

theorem index_encodingChar {x : Nat} (hx : x < 64) : indexOfBase64Byte (encodingChar x) = x := by
  revert x
  decide +kernel

theorem index_equalsChar : indexOfBase64Byte equalsChar = equals := by decide

theorem index_le (c : UInt8) : indexOfBase64Byte c ≤ invalid := by
  have hall : ∀ x ∈ base64Chars, x ≤ invalid := by decide +kernel
  unfold indexOfBase64Byte
  rw [List.getD_eq_getElem?_getD]
  cases h : base64Chars[c.toNat]? with
  | none => exact Nat.le_refl _
  | some x => exact hall x (List.mem_of_getElem? h)

theorem index_cases (c : UInt8) : IsData c ∨ isEquals c = true ∨ isWhitespace c = true ∨
    indexOfBase64Byte c = invalid := by
  have hle : indexOfBase64Byte c ≤ 66 := index_le c
  rcases Nat.lt_or_ge (indexOfBase64Byte c) 64 with hdata | hge
  · exact .inl hdata
  · have hcases : indexOfBase64Byte c = 64 ∨ indexOfBase64Byte c = 65 ∨ indexOfBase64Byte c = 66 := by omega
    rcases hcases with h | h | h
    · exact .inr (.inl (decide_eq_true h))
    · exact .inr (.inr (.inl (decide_eq_true h)))
    · exact .inr (.inr (.inr h))

section

variable {s : State} {c : UInt8}

theorem step_equals (h : isEquals c = true) :
    step s c = some { s with numTrailingEquals := s.numTrailingEquals + 1 } := by
  unfold step
  rw [if_pos (of_decide_eq_true h)]

theorem step_whitespace (h : isWhitespace c = true) : step s c = some s := by
  have hx : indexOfBase64Byte c = whitespace := of_decide_eq_true h
  unfold step
  rw [hx, if_neg (by decide), if_pos rfl]

theorem step_invalid (h : indexOfBase64Byte c = invalid) : step s c = none := by
  unfold step
  rw [h, if_neg (by decide), if_neg (by decide), if_pos rfl]

theorem step_data (h : IsData c) : step s c =
    if s.numTrailingEquals > 0 then none
    else if s.bufferSize + 1 = 4 then
      some { s with
        out := s.out ++ [byte ((((s.buffer <<< 6) ||| indexOfBase64Byte c) % 2 ^ 32) >>> 16),
          byte ((((s.buffer <<< 6) ||| indexOfBase64Byte c) % 2 ^ 32) >>> 8),
          byte ((((s.buffer <<< 6) ||| indexOfBase64Byte c) % 2 ^ 32) >>> 0)]
        bytesWritten := s.bytesWritten + 3
        buffer := 0
        bufferSize := 0 }
    else some { s with
      buffer := ((s.buffer <<< 6) ||| indexOfBase64Byte c) % 2 ^ 32
      bufferSize := s.bufferSize + 1 } := by
  have hlt : indexOfBase64Byte c < 64 := h
  have hne : ∀ k, 64 ≤ k → indexOfBase64Byte c ≠ k := by omega
  unfold step
  rw [if_neg (hne _ (by decide)), if_neg (hne _ (by decide)), if_neg (hne _ (by decide))]

end

/-! ## Whitespace -/

/-- The input without its whitespace. -/
def strip (input : List UInt8) : List UInt8 := input.filter (!isWhitespace ·)

theorem decodeLoop_strip : ∀ (s : State) (input : List UInt8),
    decodeLoop s (strip input) = decodeLoop s input
  | _, [] => rfl
  | s, c :: input => by
    unfold strip
    rw [List.filter_cons]
    by_cases h : isWhitespace c = true
    · rw [h, Bool.not_true, if_neg Bool.false_ne_true, decodeLoop, step_whitespace h]
      exact decodeLoop_strip s input
    · rw [Bool.not_eq_true] at h
      rw [h, Bool.not_false, if_pos rfl, decodeLoop, decodeLoop]
      cases step s c with
      | none => rfl
      | some s => exact decodeLoop_strip s input

/-! ## What was encoded -/

theorem byte_eq {x : Nat} {a : UInt8} (h : x % 256 = a.toNat) : byte x = a := by
  have hand : x &&& 0xff = x % 256 := Nat.and_two_pow_sub_one_eq_mod x 8
  unfold byte
  rw [hand, h, UInt8.ofNat_toNat]

theorem quad_eq (a b c : UInt8) : quad a b c =
    [encodingChar (a.toNat / 4), encodingChar (a.toNat % 4 * 16 + b.toNat / 16),
     encodingChar (b.toNat % 16 * 4 + c.toNat / 64), encodingChar (c.toNat % 64)] := by
  have ha : a.toNat < 256 := a.toNat_lt
  have hb : b.toNat < 256 := b.toNat_lt
  have hc : c.toNat < 256 := c.toNat_lt
  have hand : ∀ x : Nat, x &&& 0x3F = x % 64 := fun x => Nat.and_two_pow_sub_one_eq_mod x 6
  have h₁ : (a.toNat * 2 ^ 16 + b.toNat * 2 ^ 8 + c.toNat) / 2 ^ 18 % 64 = a.toNat / 4 := by omega
  have h₂ : (a.toNat * 2 ^ 16 + b.toNat * 2 ^ 8 + c.toNat) / 2 ^ 12 % 64 = a.toNat % 4 * 16 + b.toNat / 16 := by
    omega
  have h₃ : (a.toNat * 2 ^ 16 + b.toNat * 2 ^ 8 + c.toNat) / 2 ^ 6 % 64 = b.toNat % 16 * 4 + c.toNat / 64 := by
    omega
  have h₄ : (a.toNat * 2 ^ 16 + b.toNat * 2 ^ 8 + c.toNat) / 2 ^ 0 % 64 = c.toNat % 64 := by omega
  unfold quad
  simp only [hand, Nat.shiftLeft_eq, Nat.shiftRight_eq_div_pow]
  rw [h₁, h₂, h₃, h₄]

section

variable {out : List UInt8} {bw n buf x : Nat} {rest : List UInt8}

theorem isData_encodingChar (hx : x < 64) : IsData (encodingChar x) := by
  unfold IsData
  rw [index_encodingChar hx]
  exact hx

theorem shift_or (hbuf : buf < 2 ^ 18) (hx : x < 64) : ((buf <<< 6) ||| x) % 2 ^ 32 = buf * 64 + x := by
  rw [Nat.shiftLeft_eq, Nat.mul_comm, ← Nat.two_pow_add_eq_or_of_lt (i := 6) hx]
  omega

theorem step_char (hbuf : buf < 2 ^ 18) (hx : x < 64) (hn : n ≠ 3) :
    step ⟨out, bw, 0, buf, n⟩ (encodingChar x) = some ⟨out, bw, 0, buf * 64 + x, n + 1⟩ := by
  rw [step_data (isData_encodingChar hx), index_encodingChar hx, if_neg (Nat.lt_irrefl 0),
    if_neg (by dsimp only; omega)]
  dsimp only
  rw [shift_or hbuf hx]

theorem step_fourth (hbuf : buf < 2 ^ 18) (hx : x < 64) :
    step ⟨out, bw, 0, buf, 3⟩ (encodingChar x) = some ⟨out ++ [byte ((buf * 64 + x) >>> 16),
      byte ((buf * 64 + x) >>> 8), byte ((buf * 64 + x) >>> 0)], bw + 3, 0, 0, 0⟩ := by
  rw [step_data (isData_encodingChar hx), index_encodingChar hx, if_neg (Nat.lt_irrefl 0), if_pos rfl]
  dsimp only
  rw [shift_or hbuf hx]

theorem decodeLoop_some {s s' : State} {c : UInt8} (h : step s c = some s') (input : List UInt8) :
    decodeLoop s (c :: input) = decodeLoop s' input := by
  rw [decodeLoop, h]

theorem decodeLoop_quad (a b c : UInt8) : decodeLoop ⟨out, bw, 0, 0, 0⟩ (quad a b c ++ rest) =
    decodeLoop ⟨out ++ [a, b, c], bw + 3, 0, 0, 0⟩ rest := by
  have ha : a.toNat < 256 := a.toNat_lt
  have hb : b.toNat < 256 := b.toNat_lt
  have hc : c.toNat < 256 := c.toNat_lt
  rw [quad_eq]
  simp only [List.cons_append, List.nil_append]
  rw [decodeLoop_some (step_char (by omega) (by omega) (by omega)),
    decodeLoop_some (step_char (by omega) (by omega) (by omega)),
    decodeLoop_some (step_char (by omega) (by omega) (by omega)),
    decodeLoop_some (step_fourth (by omega) (by omega))]
  simp only [Nat.shiftRight_eq_div_pow]
  rw [byte_eq (a := a) (by omega), byte_eq (a := b) (by omega), byte_eq (a := c) (by omega)]

theorem decodeLoop_equals (s : State) (p : Nat) : decodeLoop s (List.replicate p equalsChar) =
    ({ s with numTrailingEquals := s.numTrailingEquals + p }, true) := by
  induction p generalizing s with
  | zero => rfl
  | succ p ih =>
    rw [List.replicate_succ, decodeLoop_some (step_equals (decide_eq_true index_equalsChar)), ih]
    simp only [Nat.add_assoc, Nat.add_comm 1]

end

/-- The characters that stand for the bytes, without the padding. -/
def chars : List UInt8 → List UInt8
  | [] => []
  | [a] => (quad a 0 0).take 2
  | [a, b] => (quad a b 0).take 3
  | a :: b :: c :: bytes => quad a b c ++ chars bytes

def padding (bytes : List UInt8) : Nat := (3 - bytes.length % 3) % 3

/-- The bits that are left in the buffer behind the last whole group, and the number of characters. -/
def tailState : List UInt8 → Nat × Nat
  | [a] => (a.toNat * 16, 2)
  | [a, b] => (a.toNat * 1024 + b.toNat * 4, 3)
  | _ => (0, 0)

/-- The loop on an encoded string, with any number of padding characters: the whole groups have been
written, and the rest `t` is in the buffer. -/
theorem decodeLoop_chars (p : Nat) : ∀ (bytes out : List UInt8) (bw : Nat), ∃ w t, bytes = w ++ t ∧
    t.length = bytes.length % 3 ∧
    decodeLoop ⟨out, bw, 0, 0, 0⟩ (chars bytes ++ List.replicate p equalsChar) =
      (⟨out ++ w, bw + w.length, p, (tailState t).1, (tailState t).2⟩, true)
  | [], out, bw => by
    refine ⟨[], [], rfl, rfl, ?_⟩
    rw [chars, List.nil_append, decodeLoop_equals, List.append_nil, Nat.zero_add]
    rfl
  | [a], out, bw => by
    have ha : a.toNat < 256 := a.toNat_lt
    have hbuf : (0 * 64 + a.toNat / 4) * 64 + (a.toNat % 4 * 16 + 0 / 16) = a.toNat * 16 := by omega
    refine ⟨[], [a], rfl, rfl, ?_⟩
    rw [chars, quad_eq]
    simp only [List.take_succ_cons, List.take_zero, List.cons_append, List.nil_append, UInt8.toNat_zero]
    rw [decodeLoop_some (step_char (by omega) (by omega) (by omega)),
      decodeLoop_some (step_char (by omega) (by omega) (by omega)), decodeLoop_equals, hbuf]
    simp [tailState]
  | [a, b], out, bw => by
    have ha : a.toNat < 256 := a.toNat_lt
    have hb : b.toNat < 256 := b.toNat_lt
    have hbuf : ((0 * 64 + a.toNat / 4) * 64 + (a.toNat % 4 * 16 + b.toNat / 16)) * 64 +
        (b.toNat % 16 * 4 + 0 / 64) = a.toNat * 1024 + b.toNat * 4 := by omega
    refine ⟨[], [a, b], rfl, rfl, ?_⟩
    rw [chars, quad_eq]
    simp only [List.take_succ_cons, List.take_zero, List.cons_append, List.nil_append, UInt8.toNat_zero]
    rw [decodeLoop_some (step_char (by omega) (by omega) (by omega)),
      decodeLoop_some (step_char (by omega) (by omega) (by omega)),
      decodeLoop_some (step_char (by omega) (by omega) (by omega)), decodeLoop_equals, hbuf]
    simp [tailState]
  | a :: b :: c :: bytes, out, bw => by
    obtain ⟨w, t, rfl, ht, hloop⟩ := decodeLoop_chars p bytes (out ++ [a, b, c]) (bw + 3)
    refine ⟨a :: b :: c :: w, t, rfl, ?_, ?_⟩
    · simp only [List.length_append, List.length_cons] at ht ⊢
      omega
    · rw [chars, List.append_assoc, decodeLoop_quad, hloop]
      simp
      omega

theorem base64Encode_cons (a b c : UInt8) (bytes : List UInt8) :
    base64Encode (a :: b :: c :: bytes) = quad a b c ++ base64Encode bytes := by
  have hfour : (quad a b c).length = 4 := rfl
  have hset : ∀ (k : Nat) (out : List UInt8), 4 ≤ k →
      (quad a b c ++ out).set k equalsChar = quad a b c ++ out.set (k - 4) equalsChar := by
    intro k out hk
    rw [List.set_append_right _ _ (by omega), hfour]
  have hmod : (bytes.length + 3) % 3 = bytes.length % 3 := Nat.add_mod_right _ _
  have hsize : 4 * ((bytes.length + 3 + 2) / 3) = 4 * ((bytes.length + 2) / 3) + 4 := by omega
  unfold base64Encode
  dsimp only [List.length_cons, encodeLoop]
  rw [hmod, hsize]
  split
  · rename_i hone
    have hlast : 4 * ((bytes.length + 2) / 3) + 4 - 1 - 4 = 4 * ((bytes.length + 2) / 3) - 1 := by omega
    have hprev : 4 * ((bytes.length + 2) / 3) + 4 - 2 - 4 = 4 * ((bytes.length + 2) / 3) - 2 := by omega
    rw [hset _ _ (by omega), hset _ _ (by omega), hlast, hprev]
  · rename_i htwo
    have hlast : 4 * ((bytes.length + 2) / 3) + 4 - 1 - 4 = 4 * ((bytes.length + 2) / 3) - 1 := by omega
    rw [hset _ _ (by omega), hlast]
  · rfl

theorem base64Encode_eq : ∀ bytes : List UInt8,
    base64Encode bytes = chars bytes ++ List.replicate (padding bytes) equalsChar
  | [] => rfl
  | [_] => by simp [base64Encode, encodeLoop, chars, quad, padding]
  | [_, _] => by simp [base64Encode, encodeLoop, chars, quad, padding]
  | a :: b :: c :: bytes => by
    have hpad : padding (a :: b :: c :: bytes) = padding bytes := by
      unfold padding
      simp only [List.length_cons]
      omega
    rw [base64Encode_cons, base64Encode_eq bytes, chars, hpad, List.append_assoc]

theorem length_chars : ∀ bytes : List UInt8, (chars bytes).length % 4 = (4 - padding bytes) % 4
  | [] => rfl
  | [_] => by simp [chars, quad, padding]
  | [_, _] => by simp [chars, quad, padding]
  | a :: b :: c :: bytes => by
    have hfour : (quad a b c).length = 4 := rfl
    have ih := length_chars bytes
    unfold padding at ih ⊢
    rw [chars, List.length_append, hfour]
    simp only [List.length_cons]
    omega

theorem isData_of_mem_quad {a b c x : UInt8} (h : x ∈ quad a b c) : IsData x := by
  have ha : a.toNat < 256 := a.toNat_lt
  have hb : b.toNat < 256 := b.toNat_lt
  have hc : c.toNat < 256 := c.toNat_lt
  rw [quad_eq] at h
  simp only [List.mem_cons, List.not_mem_nil, or_false] at h
  rcases h with rfl | rfl | rfl | rfl <;> exact isData_encodingChar (by omega)

theorem isData_of_mem_chars {x : UInt8} : ∀ {bytes : List UInt8}, x ∈ chars bytes → IsData x
  | [], h => absurd h List.not_mem_nil
  | [_], h => isData_of_mem_quad (List.mem_of_mem_take h)
  | [_, _], h => isData_of_mem_quad (List.mem_of_mem_take h)
  | _ :: _ :: _ :: _, h => (List.mem_append.mp h).elim isData_of_mem_quad isData_of_mem_chars

theorem ne_equalsChar {c : UInt8} (h : IsData c) : c ≠ equalsChar := by
  rintro rfl
  unfold IsData at h
  rw [index_equalsChar] at h
  exact Nat.lt_irrefl _ h

/-- An encoded string without its padding. -/
def unpadded (encoded : List UInt8) : List UInt8 := encoded.filter (· ≠ equalsChar)

theorem unpadded_base64Encode (bytes : List UInt8) : unpadded (base64Encode bytes) = chars bytes := by
  unfold unpadded
  rw [base64Encode_eq, List.filter_append]
  have hchars : (chars bytes).filter (· ≠ equalsChar) = chars bytes :=
    List.filter_eq_self.mpr fun c hc => decide_eq_true (ne_equalsChar (isData_of_mem_chars hc))
  have hpad : (List.replicate (padding bytes) equalsChar).filter (· ≠ equalsChar) = [] :=
    List.filter_eq_nil_iff.mpr fun c hc => by simp [List.eq_of_mem_replicate hc]
  rw [hchars, hpad, List.append_nil]

/-! ## The trailing bytes -/

theorem trailing_value (num p buf n : Nat) (w : List UInt8) :
    (trailing num ⟨w, w.length, p, buf, n⟩).value =
      if num = 0 then if n = 0 then some w else none
      else if num = 1 then some (w ++ [byte (buf >>> 10), byte (buf >>> 2)])
      else if num = 2 then some (w ++ [byte (buf >>> 4)])
      else none := by
  unfold trailing Decoded.value
  split_ifs <;> simp_all [List.take_of_length_le]

theorem trailing_value_iff {w t : List UInt8} (ht : t.length < 3) (num p : Nat) :
    (trailing num ⟨w, w.length, p, (tailState t).1, (tailState t).2⟩).value = some (w ++ t) ↔
      num = (3 - t.length) % 3 := by
  rw [trailing_value]
  match t, ht with
  | [], _ => rcases num with _ | _ | _ | num <;> simp [tailState]
  | [a], _ =>
    have ha : byte ((a.toNat * 16) >>> 4) = a := byte_eq (by
      have := a.toNat_lt
      rw [Nat.shiftRight_eq_div_pow]
      omega)
    rcases num with _ | _ | _ | num <;> simp [tailState, ha]
  | [a, b], _ =>
    have hlt := a.toNat_lt
    have hlt' := b.toNat_lt
    have ha : byte ((a.toNat * 1024 + b.toNat * 4) >>> 10) = a := byte_eq (by
      rw [Nat.shiftRight_eq_div_pow]
      omega)
    have hb : byte ((a.toNat * 1024 + b.toNat * 4) >>> 2) = b := byte_eq (by
      rw [Nat.shiftRight_eq_div_pow]
      omega)
    rcases num with _ | _ | _ | num <;> simp [tailState, ha, hb]

theorem decode_chars_iff {bytes input : List UInt8} {p : Nat}
    (h : strip input = chars bytes ++ List.replicate p equalsChar) :
    (base64Decode input).value = some bytes ↔
      (if p = 0 ∧ input.length % 4 > 1 then 4 - input.length % 4 else p) = padding bytes := by
  obtain ⟨w, t, rfl, ht, hloop⟩ := decodeLoop_chars p bytes [] 0
  have hstart : decodeLoop State.start input =
      (⟨w, w.length, p, (tailState t).1, (tailState t).2⟩, true) := by
    rw [← decodeLoop_strip, h]
    refine hloop.trans ?_
    rw [List.nil_append, Nat.zero_add]
  unfold base64Decode padding
  rw [hstart, ← ht]
  exact trailing_value_iff (ht ▸ Nat.mod_lt _ (by decide)) _ _

/-- Whitespace does not matter for an encoded string `e`: it has its padding, or the length is still one
from which the same padding is computed. -/
def Unaffected (e input : List UInt8) : Prop :=
  equalsChar ∈ e ∨ input.length % 4 = e.length % 4 ∨ (e.length % 4 = 0 ∧ input.length % 4 = 1)

theorem missing_iff {pad n m : Nat} (hpad : pad < 3) (hm : m % 4 = (4 - pad) % 4) :
    (if n % 4 > 1 then 4 - n % 4 else 0) = pad ↔ n % 4 = m % 4 ∨ (m % 4 = 0 ∧ n % 4 = 1) := by
  obtain rfl | rfl | rfl : pad = 0 ∨ pad = 1 ∨ pad = 2 := by omega
  all_goals split <;> omega

theorem decode_unpadded_iff {bytes input : List UInt8} (h : strip input = chars bytes) :
    (base64Decode input).value = some bytes ↔ Unaffected (chars bytes) input := by
  have hnone : equalsChar ∉ chars bytes := fun hmem => ne_equalsChar (isData_of_mem_chars hmem) rfl
  have h' : strip input = chars bytes ++ List.replicate 0 equalsChar := by
    rw [h, List.replicate_zero, List.append_nil]
  unfold Unaffected
  rw [decode_chars_iff h']
  simp only [hnone, false_or, true_and]
  exact missing_iff (Nat.mod_lt _ (by decide)) (length_chars bytes)

theorem decode_spaced_iff {bytes e input : List UInt8}
    (he : e = base64Encode bytes ∨ e = unpadded (base64Encode bytes)) (h : strip input = e) :
    (base64Decode input).value = some bytes ↔ Unaffected e input := by
  rw [unpadded_base64Encode, base64Encode_eq] at he
  rcases he with rfl | rfl
  · rcases Nat.eq_zero_or_pos (padding bytes) with hzero | hpos
    · rw [hzero, List.replicate_zero, List.append_nil] at h ⊢
      exact decode_unpadded_iff h
    · have hmem : equalsChar ∈ chars bytes ++ List.replicate (padding bytes) equalsChar :=
        List.mem_append_right _ (List.mem_replicate.mpr ⟨by omega, rfl⟩)
      rw [decode_chars_iff h, if_neg (by omega)]
      exact iff_of_true rfl (.inl hmem)
  · exact decode_unpadded_iff h

theorem strip_base64Encode (bytes : List UInt8) : strip (base64Encode bytes) = base64Encode bytes := by
  have hdata : ∀ {c : UInt8}, IsData c → (!isWhitespace c) = true := by
    intro c hc
    have hne : indexOfBase64Byte c ≠ whitespace := fun heq => by
      have hlt : indexOfBase64Byte c < 64 := hc
      rw [heq] at hlt
      exact absurd hlt (by decide)
    rw [isWhitespace, decide_eq_false hne]
    rfl
  refine List.filter_eq_self.mpr fun c hc => ?_
  rw [base64Encode_eq] at hc
  rcases List.mem_append.mp hc with hc | hc
  · exact hdata (isData_of_mem_chars hc)
  · rw [List.eq_of_mem_replicate hc]
    decide

/-! ## The size of the output -/

/-- The loop has read `v` data characters and `q` padding characters. -/
structure Counts (s : State) (v q : Nat) : Prop where
  out_eq : s.out.length = 3 * (v / 4)
  bufferSize_eq : s.bufferSize = v % 4
  equals_eq : s.numTrailingEquals = q

/-- What a run of the loop has read: `dv` data characters, `dq` padding characters and `k` others.  If it
got to the end it has read everything, and without others the padding stands at the end. -/
def Ran (v q : Nat) (input : List UInt8) (r : State × Bool) : Prop :=
  ∃ dv dq k, Counts r.1 (v + dv) (q + dq) ∧ dv + dq + k ≤ input.length ∧
    (r.2 = true → dv + dq + k = input.length ∧ (0 < q → dv = 0) ∧
      (k = 0 → ∃ d es, input = d ++ es ∧ d.length = dv ∧ es.length = dq ∧ (∀ x ∈ d, IsData x) ∧
        ∀ x ∈ es, isEquals x = true))

theorem counts_start : Counts State.start 0 0 := ⟨rfl, rfl, rfl⟩

section

variable {s : State} {v q : Nat} {c : UInt8} {input : List UInt8} {r : State × Bool}

theorem Counts.data (h : Counts s v 0) (hc : IsData c) : ∃ s', step s c = some s' ∧ Counts s' (v + 1) 0 := by
  have hout := h.out_eq
  have hsize := h.bufferSize_eq
  rw [step_data hc, if_neg (by rw [h.equals_eq]; exact Nat.lt_irrefl 0)]
  split
  · refine ⟨_, rfl, ?_, ?_, h.equals_eq⟩
    · simp only [List.length_append, List.length_cons, List.length_nil]
      omega
    · dsimp only
      omega
  · refine ⟨_, rfl, ?_, ?_, h.equals_eq⟩
    · dsimp only
      omega
    · dsimp only
      omega

theorem Counts.equals (h : Counts s v q) (hc : isEquals c = true) :
    ∃ s', step s c = some s' ∧ Counts s' v (q + 1) :=
  ⟨_, step_equals hc, h.out_eq, h.bufferSize_eq, congrArg (· + 1) h.equals_eq⟩

theorem Ran.data (h : Ran (v + 1) 0 input r) (hc : IsData c) : Ran v 0 (c :: input) r := by
  obtain ⟨dv, dq, k, hcounts, hle, hend⟩ := h
  rw [Nat.add_assoc, Nat.add_comm 1] at hcounts
  refine ⟨dv + 1, dq, k, hcounts, by rw [List.length_cons]; omega, fun hok => ?_⟩
  obtain ⟨hall, -, hform⟩ := hend hok
  refine ⟨by rw [List.length_cons]; omega, fun hq => absurd hq (Nat.lt_irrefl 0), fun hk => ?_⟩
  obtain ⟨d, es, rfl, hd, hes, hdata, hequals⟩ := hform hk
  exact ⟨c :: d, es, rfl, congrArg (· + 1) hd, hes, List.forall_mem_cons.mpr ⟨hc, hdata⟩, hequals⟩

theorem Ran.equals (h : Ran v (q + 1) input r) (hc : isEquals c = true) : Ran v q (c :: input) r := by
  obtain ⟨dv, dq, k, hcounts, hle, hend⟩ := h
  rw [Nat.add_assoc, Nat.add_comm 1] at hcounts
  refine ⟨dv, dq + 1, k, hcounts, by rw [List.length_cons]; omega, fun hok => ?_⟩
  obtain ⟨hall, hnodata, hform⟩ := hend hok
  have hzero := hnodata (Nat.succ_pos q)
  refine ⟨by rw [List.length_cons]; omega, fun _ => hzero, fun hk => ?_⟩
  obtain ⟨d, es, rfl, hd, hes, hdata, hequals⟩ := hform hk
  obtain rfl : d = [] := List.eq_nil_of_length_eq_zero (hd.trans hzero)
  exact ⟨[], c :: es, rfl, hd, congrArg (· + 1) hes, hdata, List.forall_mem_cons.mpr ⟨hc, hequals⟩⟩

theorem Ran.other (h : Ran v q input r) : Ran v q (c :: input) r := by
  obtain ⟨dv, dq, k, hcounts, hle, hend⟩ := h
  refine ⟨dv, dq, k + 1, hcounts, by rw [List.length_cons]; omega, fun hok => ?_⟩
  obtain ⟨hall, hnodata, -⟩ := hend hok
  exact ⟨by rw [List.length_cons]; omega, hnodata, fun hk => absurd hk (Nat.succ_ne_zero k)⟩

theorem Counts.stopped (h : Counts s v q) (hstep : step s c = none) :
    Ran v q (c :: input) (decodeLoop s (c :: input)) := by
  rw [decodeLoop, hstep]
  exact ⟨0, 0, 0, h, Nat.zero_le _, fun hf => absurd hf Bool.false_ne_true⟩

end

theorem Counts.ran : ∀ {input : List UInt8} {s : State} {v q : Nat}, Counts s v q →
    Ran v q input (decodeLoop s input)
  | [], _, _, _, h => ⟨0, 0, 0, h, Nat.le_refl _, fun _ => ⟨rfl, fun _ => rfl, fun _ =>
      ⟨[], [], rfl, rfl, rfl, fun _ hx => absurd hx List.not_mem_nil, fun _ hx => absurd hx List.not_mem_nil⟩⟩⟩
  | c :: input, s, v, q, h => by
    rcases index_cases c with hc | hc | hc | hc
    · rcases Nat.eq_zero_or_pos q with rfl | hq
      · obtain ⟨s', hs', h'⟩ := h.data hc
        rw [decodeLoop_some hs']
        exact h'.ran.data hc
      · refine h.stopped ?_
        rw [step_data hc, if_pos (by rw [h.equals_eq]; exact hq)]
    · obtain ⟨s', hs', h'⟩ := h.equals hc
      rw [decodeLoop_some hs']
      exact h'.ran.equals hc
    · rw [decodeLoop_some (step_whitespace hc)]
      exact h.ran.other
    · exact h.stopped (step_invalid hc)

/-- Whole groups of four characters, and one `=` behind them. -/
def LoneEquals (input : List UInt8) : Prop :=
  ∃ d c, input = d ++ [c] ∧ d.length % 4 = 0 ∧ (∀ x ∈ d, IsData x) ∧ isEquals c = true

theorem length_trailing (num : Nat) (s : State) : (trailing num s).out.length =
    s.out.length + if num = 1 then 2 else if num = 2 then 1 else 0 := by
  unfold trailing
  split_ifs <;> simp_all

theorem decodeLoop_data : ∀ {d rest : List UInt8} {s : State} {v : Nat}, Counts s v 0 → (∀ x ∈ d, IsData x) →
    ∃ s', Counts s' (v + d.length) 0 ∧ decodeLoop s (d ++ rest) = decodeLoop s' rest
  | [], _, s, _, h, _ => ⟨s, h, rfl⟩
  | c :: d, rest, s, v, h, hd => by
    obtain ⟨hc, hd⟩ := List.forall_mem_cons.mp hd
    obtain ⟨s', hs', h'⟩ := h.data hc
    obtain ⟨s'', h'', hloop⟩ := decodeLoop_data h' hd
    refine ⟨s'', ?_, (decodeLoop_some hs' _).trans hloop⟩
    rw [List.length_cons, Nat.add_comm d.length, ← Nat.add_assoc]
    exact h''

theorem LoneEquals.overflows {input : List UInt8} (h : LoneEquals input) :
    requiredBufferLen input.length < (base64Decode input).out.length := by
  obtain ⟨d, c, rfl, hlen, hd, hc⟩ := h
  obtain ⟨s, hs, hloop⟩ := decodeLoop_data counts_start hd
  obtain ⟨s', hs', h'⟩ := hs.equals hc
  rw [decodeLoop_some hs'] at hloop
  have hnum : numTrailing (d ++ [c]).length s' = 1 := by
    unfold numTrailing
    rw [h'.equals_eq]
    rfl
  have hout := h'.out_eq
  unfold base64Decode requiredBufferLen
  rw [hloop]
  dsimp only [decodeLoop]
  rw [hnum, length_trailing, List.length_append, List.length_singleton]
  simp only [if_true]
  omega

/-- **The size of the output**, for arbitrary input. -/
theorem length_out_le_iff (input : List UInt8) :
    (base64Decode input).out.length ≤ requiredBufferLen input.length ↔ ¬ LoneEquals input := by
  refine ⟨fun hle h => absurd h.overflows (Nat.not_lt.mpr hle), fun hlone => ?_⟩
  obtain ⟨dv, dq, k, hcounts, hle, hend⟩ := counts_start.ran
  rw [Nat.zero_add, Nat.zero_add] at hcounts
  have hout := hcounts.out_eq
  unfold base64Decode requiredBufferLen
  generalize hr : decodeLoop State.start input = r at hcounts hend hout
  obtain ⟨s, ok⟩ := r
  cases ok with
  | false =>
    dsimp only at hout ⊢
    omega
  | true =>
    obtain ⟨hall, -, hform⟩ := hend rfl
    have hexact : ¬ (dq = 1 ∧ k = 0 ∧ dv % 4 = 0) := by
      rintro ⟨hdq, hk, hdv⟩
      obtain ⟨d, es, hinput, hd, hes, hdata, hequals⟩ := hform hk
      obtain ⟨c, rfl⟩ := List.length_eq_one_iff.mp (hes.trans hdq)
      exact hlone ⟨d, c, hinput, hd ▸ hdv, hdata, hequals c List.mem_cons_self⟩
    have hq := hcounts.equals_eq
    clear hform hend
    dsimp only at hout hq ⊢
    rw [length_trailing]
    unfold numTrailing
    rw [hq]
    dsimp only
    split_ifs <;> omega

/-! ## The decoder -/

/-- **Encoding and decoding.**  What has been encoded is decoded; whitespace in an encoded string `e`, with or without
its padding, does not matter exactly where it leaves the padding alone; and no more bytes are written than there is room
for, except for a lone `=`. -/
theorem decode_spec (bytes e input : List UInt8) :
    (base64Decode (base64Encode bytes)).value = some bytes ∧
    ((e = base64Encode bytes ∨ e = unpadded (base64Encode bytes)) → strip input = e →
      ((base64Decode input).value = some bytes ↔ Unaffected e input)) ∧
    ((base64Decode input).out.length ≤ requiredBufferLen input.length ↔ ¬ LoneEquals input) := by
  refine ⟨?_, fun he h => decode_spaced_iff he h, length_out_le_iff input⟩
  exact (decode_spaced_iff (.inl rfl) (strip_base64Encode bytes)).mpr (.inr (.inl rfl))

theorem spaces_and_equals :
    (base64Decode (base64Encode [1, 2, 3])).value = some [1, 2, 3] ∧
    (base64Decode (base64Encode [1, 2, 3] ++ [32, 32])).value = some [1, 2, 3, 0] ∧
    requiredBufferLen [equalsChar].length = 1 ∧ (base64Decode [equalsChar]).out.length = 2 := by
  decide +kernel

end Llbt.Base64
