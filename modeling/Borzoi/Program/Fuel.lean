import Mathlib.Data.Nat.Init

/-
  Functions of a fuel that settle.

  Enough fuel gives the answer, and more fuel the same one.
-/

namespace Borzoi

namespace Program

variable {α β : Type}

def Settles
    (f : Nat → α)
    (x : α) :
    Prop :=
  ∃ enough, ∀ n, enough ≤ n → f n = x

theorem Settles.const
    (x : α) :
    Settles (fun _ => x) x :=
  ⟨0, fun _ _ => rfl⟩

/- One turn takes one unit. -/
theorem Settles.step
    {f g : Nat → α}
    {x : α}
    (hTurn : ∀ n, f (n + 1) = g n)
    (hSettles : Settles g x) :
    Settles f x := by
  rcases hSettles with ⟨enough, hEnough⟩
  refine ⟨enough + 1, ?_⟩
  intro n hLe
  cases n with
  | zero => exact absurd hLe (Nat.not_succ_le_zero _)
  | succ n =>
      rw [hTurn]
      exact hEnough n (Nat.le_of_succ_le_succ hLe)

variable {p : Nat → Option α} {x : α}

theorem Settles.bind
    {q : Nat → α → Option β}
    {y : Option β}
    (hFirst : Settles p (some x))
    (hSecond : Settles (fun n => q n x) y) :
    Settles (fun n => (p n).bind (q n)) y := by
  rcases hFirst with ⟨enough, hEnough⟩
  rcases hSecond with ⟨enough', hEnough'⟩
  refine ⟨max enough enough', ?_⟩
  intro n hLe
  have hHere := hEnough n (Nat.le_trans (Nat.le_max_left _ _) hLe)
  have hNext := hEnough' n (Nat.le_trans (Nat.le_max_right _ _) hLe)
  simp only [hHere, Option.bind_some]
  exact hNext

theorem Settles.map
    (f : α → β)
    (hFirst : Settles p (some x)) :
    Settles (fun n => (p n).map f) (some (f x)) := by
  rcases hFirst with ⟨enough, hEnough⟩
  refine ⟨enough, ?_⟩
  intro n hLe
  simp only [hEnough n hLe, Option.map_some]

/- There is one answer. -/
theorem Settles.unique
    {f : Nat → α}
    {x y : α}
    (hFirst : Settles f x)
    (hSecond : Settles f y) :
    x = y := by
  rcases hFirst with ⟨enough, hEnough⟩
  rcases hSecond with ⟨enough', hEnough'⟩
  have hX := hEnough (max enough enough') (Nat.le_max_left _ _)
  have hY := hEnough' (max enough enough') (Nat.le_max_right _ _)
  rw [← hX, hY]

end Program

end Borzoi
