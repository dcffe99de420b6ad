import Mathlib.Data.List.Basic

/-
  Lists of ranges.

  The items of a list stand for half-open ranges of numbers.  A list
  tiles a range when its items follow each other without a gap.
-/

namespace Borzoi

namespace Text

variable {α : Type}

/- The items follow each other from `lo` up to `hi`. -/
def Tiles
    (start stop : α → Nat) :
    Nat → List α → Nat → Prop
  | lo, [], hi => lo = hi
  | lo, x :: xs, hi =>
      start x = lo ∧ lo < stop x ∧ Tiles start stop (stop x) xs hi

namespace Tiles

variable {start stop : α → Nat} {xs ys : List α} {lo mid hi : Nat}

theorem le
    (hTiles : Tiles start stop lo xs hi) :
    lo ≤ hi := by
  induction xs generalizing lo with
  | nil =>
      exact Nat.le_of_eq hTiles
  | cons x xs ih =>
      rcases hTiles with ⟨-, hLt, hRest⟩
      exact Nat.le_trans (Nat.le_of_lt hLt) (ih hRest)

theorem append
    (hFirst : Tiles start stop lo xs mid)
    (hSecond : Tiles start stop mid ys hi) :
    Tiles start stop lo (xs ++ ys) hi := by
  induction xs generalizing lo with
  | nil =>
      have hEq : lo = mid := hFirst
      rw [hEq]
      exact hSecond
  | cons x xs ih =>
      rcases hFirst with ⟨hStart, hLt, hRest⟩
      exact ⟨hStart, hLt, ih hRest⟩

/- Every item lies in the range. -/
theorem within
    (hTiles : Tiles start stop lo xs hi) :
    ∀ x ∈ xs, lo ≤ start x ∧ start x < stop x ∧ stop x ≤ hi := by
  induction xs generalizing lo with
  | nil =>
      intro x hMem
      cases hMem
  | cons y xs ih =>
      intro x hMem
      rcases hTiles with ⟨hStart, hLt, hRest⟩
      rcases List.mem_cons.1 hMem with rfl | hIn
      · have hLe := hRest.le
        omega
      · have hInner := ih hRest x hIn
        omega

/- The items of a tiling are in order. -/
theorem pairwise
    (hTiles : Tiles start stop lo xs hi) :
    xs.Pairwise fun x y => stop x ≤ start y := by
  induction xs generalizing lo with
  | nil =>
      exact List.Pairwise.nil
  | cons x xs ih =>
      rcases hTiles with ⟨-, -, hRest⟩
      refine List.Pairwise.cons ?_ (ih hRest)
      intro y hMem
      exact (hRest.within y hMem).1

/- Every number of the range lies in an item. -/
theorem covers
    (hTiles : Tiles start stop lo xs hi)
    {b : Nat}
    (hLo : lo ≤ b)
    (hHi : b < hi) :
    ∃ x ∈ xs, start x ≤ b ∧ b < stop x := by
  induction xs generalizing lo with
  | nil =>
      have hEq : lo = hi := hTiles
      omega
  | cons x xs ih =>
      rcases hTiles with ⟨hStart, -, hRest⟩
      by_cases hIn : b < stop x
      · exact ⟨x, List.mem_cons_self, by omega, hIn⟩
      · rcases ih hRest (Nat.le_of_not_lt hIn) with ⟨y, hMem, hy⟩
        exact ⟨y, List.mem_cons_of_mem _ hMem, hy⟩

end Tiles

/-
  A segment of a list may be replaced by another that stands in the
  same relation to the rest.
-/
theorem pairwise_splice
    {R : α → α → Prop}
    {front seg seg' back : List α}
    (hPairs : (front ++ seg ++ back).Pairwise R)
    (hInner : seg'.Pairwise R)
    (hLeft : ∀ x, (∀ y ∈ seg, R x y) → ∀ y ∈ seg', R x y)
    (hRight : ∀ z, (∀ y ∈ seg, R y z) → ∀ y ∈ seg', R y z) :
    (front ++ seg' ++ back).Pairwise R := by
  rw [List.append_assoc, List.pairwise_append, List.pairwise_append]
    at hPairs ⊢
  rcases hPairs with ⟨hFront, ⟨-, hBack, hCross⟩, hAcross⟩
  refine ⟨hFront, ⟨hInner, hBack, ?_⟩, ?_⟩
  · intro y hy z hz
    refine hRight z ?_ y hy
    intro w hw
    exact hCross w hw z hz
  · intro x hx y hy
    rcases List.mem_append.1 hy with hSeg | hEnd
    · refine hLeft x ?_ y hSeg
      intro w hw
      exact hAcross x hx w (List.mem_append_left _ hw)
    · exact hAcross x hx y (List.mem_append_right _ hEnd)

end Text

end Borzoi
