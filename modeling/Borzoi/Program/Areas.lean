import Mathlib.Data.List.Basic
import Mathlib.Algebra.BigOperators.Group.List.Basic
import Mathlib.Algebra.GroupWithZero.Nat

/-
  Areas laid out one behind the other.

  An area starts where the areas before it end.
-/

namespace Borzoi

namespace Program

/- Where an area starts, given the sizes of all. -/
def areaStart
    (sizes : List Nat)
    (i : Nat) :
    Nat :=
  (sizes.take i).sum

variable {sizes : List Nat} {i j : Nat}

@[simp] theorem areaStart_zero :
    areaStart sizes 0 = 0 :=
  rfl

@[simp] theorem areaStart_cons
    {size : Nat} :
    areaStart (size :: sizes) (i + 1) = size + areaStart sizes i := by
  unfold areaStart
  rw [List.take_succ_cons, List.sum_cons]

theorem areaStart_succ
    (hIndex : i < sizes.length) :
    areaStart sizes (i + 1) = areaStart sizes i + sizes[i] := by
  unfold areaStart
  rw [List.take_succ_eq_append_getElem hIndex, List.sum_append,
    List.sum_singleton]

theorem areaStart_mono
    (hLe : i ≤ j) :
    areaStart sizes i ≤ areaStart sizes j := by
  induction sizes generalizing i j with
  | nil =>
      unfold areaStart
      apply Nat.le_of_eq
      rw [List.take_nil, List.take_nil]
  | cons size sizes ih =>
      cases i with
      | zero => exact Nat.zero_le _
      | succ i =>
          cases j with
          | zero => exact absurd hLe (Nat.not_succ_le_zero i)
          | succ j =>
              have hTail := ih (Nat.le_of_succ_le_succ hLe)
              rw [areaStart_cons, areaStart_cons]
              exact Nat.add_le_add_left hTail size

theorem areaStart_length :
    areaStart sizes sizes.length = sizes.sum := by
  unfold areaStart
  rw [List.take_length]

/- An area ends before every later one starts. -/
theorem area_end_le
    (hIndex : i < sizes.length)
    (hLater : i < j) :
    areaStart sizes i + sizes[i] ≤ areaStart sizes j := by
  rw [← areaStart_succ hIndex]
  exact areaStart_mono hLater

theorem area_end_le_sum
    (hIndex : i < sizes.length) :
    areaStart sizes i + sizes[i] ≤ sizes.sum := by
  rw [← areaStart_length]
  exact area_end_le hIndex hIndex

end Program

end Borzoi
