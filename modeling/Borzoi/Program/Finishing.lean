import Mathlib.Data.List.Basic
import Mathlib.Logic.Relation

/-
  The order in which a depth-first search finishes.

  Where every item comes before the items it steps to, no item steps
  back to itself.
-/

namespace Borzoi

namespace Program

open Relation

variable {α : Type} {step : α → α → Prop}

/- Every item steps to later items only. -/
def Descends
    (step : α → α → Prop) :
    List α → Prop
  | [] => True
  | x :: rest => (∀ y, step x y → y ∈ rest) ∧ Descends step rest

variable {items : List α} {x y : α}

theorem Descends.closed
    (hDescends : Descends step items)
    (hMem : x ∈ items)
    (hStep : step x y) :
    y ∈ items := by
  induction items with
  | nil => cases hMem
  | cons z rest ih =>
      rcases hDescends with ⟨hHead, hRest⟩
      rcases List.mem_cons.1 hMem with rfl | hIn
      · exact List.mem_cons_of_mem _ (hHead y hStep)
      · exact List.mem_cons_of_mem _ (ih hRest hIn)

/- What an item reaches is on the list too. -/
theorem Descends.reaches
    (hDescends : Descends step items)
    (hMem : x ∈ items)
    (hPath : ReflTransGen step x y) :
    y ∈ items := by
  induction hPath with
  | refl => exact hMem
  | tail _ hStep ih => exact hDescends.closed ih hStep

theorem Descends.acyclic
    (hDescends : Descends step items)
    (hMem : x ∈ items) :
    ¬ TransGen step x x := by
  induction items with
  | nil => cases hMem
  | cons z rest ih =>
      intro hCycle
      rcases hDescends with ⟨hHead, hRest⟩
      -- an item on a cycle is one of the later items
      have hLater : x ∈ rest := by
        rcases List.mem_cons.1 hMem with rfl | hIn
        · rcases TransGen.head'_iff.1 hCycle with ⟨y, hStep, hBack⟩
          exact hRest.reaches (hHead y hStep) hBack
        · exact hIn
      exact ih hRest hLater hCycle

end Program

end Borzoi
