import Mathlib.Data.List.Basic

/-
  Parsers by recursive descent with fuel.

  A parser takes a list of tokens and returns a value and the tokens
  behind it. One that leaves fewer tokens than it was given may be
  called again with less fuel.
-/

namespace Borzoi

namespace Program

namespace Descent

variable {ε τ α β : Type} {spent : ε} {n m : Nat}

variable {result : Except ε α} {next : α → Except ε β} {f : α → β}

/- A sequence succeeds through its first part. -/
theorem bind_ok
    {b : β} :
    result >>= next = .ok b ↔
      ∃ a, result = .ok a ∧ next a = .ok b := by
  cases result with
  | error fault =>
      constructor
      · intro hNext
        cases hNext
      · rintro ⟨a, hA, _⟩
        cases hA
  | ok a =>
      constructor
      · intro hNext
        exact ⟨a, rfl, hNext⟩
      · rintro ⟨a', hA, hNext⟩
        cases hA
        exact hNext

theorem map_ok
    {b : β} :
    f <$> result = .ok b ↔
      ∃ a, result = .ok a ∧ f a = b := by
  cases result with
  | error fault =>
      constructor
      · intro hMap
        cases hMap
      · rintro ⟨a, hA, _⟩
        cases hA
  | ok a =>
      constructor
      · intro hMap
        cases hMap
        exact ⟨a, rfl, rfl⟩
      · rintro ⟨a', hA, hMap⟩
        cases hA
        exact congrArg Except.ok hMap

/- The fault is not `spent`, and a success leaves what `left` reads off
   it shorter than `n`. -/
def Leaves
    (spent : ε)
    (left : α → List τ)
    (n : Nat)
    (result : Except ε α) :
    Prop :=
  match result with
  | .error fault => fault ≠ spent
  | .ok value => (left value).length < n

variable {left : α → List τ} {left' : β → List τ} {result : Except ε α}

theorem Leaves.mono
    (hLe : n ≤ m)
    (hLeaves : Leaves spent left n result) :
    Leaves spent left m result := by
  cases result with
  | error fault => exact hLeaves
  | ok value => exact Nat.lt_of_lt_of_le hLeaves hLe

/- What goes on with the rest leaves no more. -/
theorem Leaves.bind
    (hFirst : Leaves spent left n result)
    (hNext : ∀ value : α, (left value).length < n →
      Leaves spent left' m (next value)) :
    Leaves spent left' m (result >>= next) := by
  cases result with
  | error fault => exact hFirst
  | ok value => exact hNext value hFirst

theorem Leaves.map
    (hLeft : ∀ value : α, left' (f value) = left value)
    (hLeaves : Leaves spent left n result) :
    Leaves spent left' n (f <$> result) := by
  cases result with
  | error fault => exact hLeaves
  | ok value =>
      show (left' (f value)).length < n
      rw [hLeft value]
      exact hLeaves

/- A parser that leaves something is not out of fuel. -/
theorem Leaves.not_spent
    (hLeaves : Leaves spent left n result) :
    result ≠ .error spent := by
  intro hSpent
  rw [hSpent] at hLeaves
  exact hLeaves rfl

end Descent

end Program

end Borzoi
