import Llbt.IntArray.Direct
import Llbt.Lib.Search

/-!
# Lower and upper bound

`lower_bound<width>` and `upper_bound<width>` search a sorted packed array without a branch that depends on its
contents.  Every read is checked against the size here, so that a result says that no element at or beyond it has been
read.

* `bounds_eq_count` — for every width, the results are the number of elements below the value, and the number of those
  not above it.
-/

set_option autoImplicit false

namespace Llbt.IntArray

open Search

/-- `get_direct<width>(data, ndx)` of an array of `size` elements; `none` is a read beyond them. -/
def readDirect (data width size ndx : Nat) : Option Int := if ndx < size then some (getDirect data width ndx) else none

def lowerBound (data width size : Nat) (value : Int) : Option Nat :=
  halving (fun probe => (readDirect data width size probe).map fun v => decide (v < value)) size

def upperBound (data width size : Nat) (value : Int) : Option Nat :=
  halving (fun probe => (readDirect data width size probe).map fun v => decide (value ≥ v)) size

theorem halving_elements (data width size : Nat) {p : Int → Bool}
    (hsorted : (elements data width size).Pairwise fun a b => p b = true → p a = true) :
    halving (fun probe => (readDirect data width size probe).map p) size =
      some ((elements data width size).countP p) := by
  refine halving_eq ?_ fun i hi => ?_
  · exact Nat.le_trans List.countP_le_length (Nat.le_of_eq (length_elements data width size))
  · rw [readDirect, if_pos hi, Option.map_some, pred_getElem hsorted (getElem?_elements data width hi)]

/-- **Lower and upper bound.** -/
theorem bounds_eq_count {data width size : Nat} (value : Int) (hsorted : (elements data width size).Pairwise (· ≤ ·)) :
    lowerBound data width size value = some ((elements data width size).countP (· < value)) ∧
      upperBound data width size value = some ((elements data width size).countP (· ≤ value)) := by
  constructor
  · refine halving_elements data width size (hsorted.imp fun {a b} hab hb => ?_)
    exact decide_eq_true (Int.lt_of_le_of_lt hab (of_decide_eq_true hb))
  · refine halving_elements data width size (hsorted.imp fun {a b} hab hb => ?_)
    exact decide_eq_true (Int.le_trans hab (of_decide_eq_true hb))

/-- The bytes -3, 5, 5, 5, 9, 9, 9, 9, 16, 16, 16, 16, 32, 32, 32, 48. -/
theorem bounds_of_sixteen : lowerBound 0x302020201010101009090909050505fd 8 16 5 = some 1 ∧
    upperBound 0x302020201010101009090909050505fd 8 16 5 = some 4 :=
  bounds_eq_count 5 (by decide +kernel)

end Llbt.IntArray
