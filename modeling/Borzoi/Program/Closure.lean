import Mathlib.Data.Fintype.Card
import Mathlib.Logic.Relation

/-
  Closures by a stack.

  An entry is popped, and unless it is already out it goes out and its
  successors are pushed.  What goes out in the end is what the stack
  reaches.
-/

namespace Borzoi

namespace Program

/- The top of the stack comes first. -/
def closeLoop
    {α : Type} [DecidableEq α] [Fintype α]
    (next : α → List α)
    (out : Finset α)
    (stack : List α) :
    Finset α :=
  match stack with
  | [] => out
  | x :: stack =>
      if x ∈ out then
        closeLoop next out stack
      else
        closeLoop next (insert x out) ((next x).reverse ++ stack)
termination_by (outᶜ.card, stack.length)
decreasing_by
  · exact Prod.Lex.right _ (Nat.lt_succ_self _)
  · apply Prod.Lex.left
    apply Finset.card_lt_card
    rw [Finset.compl_insert]
    exact Finset.erase_ssubset (Finset.mem_compl.2 ‹_›)

variable {α : Type} [DecidableEq α] {next : α → List α}

/- The successors of what is out are out or on the stack. -/
def Pending
    (next : α → List α)
    (out : Finset α)
    (stack : List α) :
    Prop :=
  ∀ x ∈ out, ∀ y ∈ next x, y ∈ out ∨ y ∈ stack

variable {out : Finset α} {stack : List α} {x : α}

omit [DecidableEq α] in
theorem Pending.skip
    (hPending : Pending next out (x :: stack))
    (hOut : x ∈ out) :
    Pending next out stack := by
  intro z hMem y hNext
  rcases hPending z hMem y hNext with hY | hY
  · exact Or.inl hY
  · rcases List.mem_cons.1 hY with rfl | hY
    · exact Or.inl hOut
    · exact Or.inr hY

theorem Pending.take
    (hPending : Pending next out (x :: stack)) :
    Pending next (insert x out) ((next x).reverse ++ stack) := by
  intro z hMem y hNext
  rcases Finset.mem_insert.1 hMem with rfl | hMem
  · exact Or.inr
      (List.mem_append_left _ (List.mem_reverse.2 hNext))
  · rcases hPending z hMem y hNext with hY | hY
    · exact Or.inl (Finset.mem_insert_of_mem hY)
    · rcases List.mem_cons.1 hY with rfl | hY
      · exact Or.inl (Finset.mem_insert_self _ _)
      · exact Or.inr (List.mem_append_right _ hY)

variable [Fintype α]

/- Everything met goes out, with its successors. -/
theorem closeLoop_closed
    (hPending : Pending next out stack) :
    (∀ x, x ∈ out ∨ x ∈ stack → x ∈ closeLoop next out stack) ∧
      Pending next (closeLoop next out stack) [] := by
  induction out, stack using closeLoop.induct next with
  | case1 out =>
      rw [closeLoop]
      refine ⟨?_, hPending⟩
      rintro x (hOut | hStack)
      · exact hOut
      · cases hStack
  | case2 out x stack hOut ih =>
      rw [closeLoop, if_pos hOut]
      rcases ih (hPending.skip hOut) with ⟨hAll, hClosed⟩
      refine ⟨?_, hClosed⟩
      rintro y (hY | hY)
      · exact hAll y (Or.inl hY)
      · rcases List.mem_cons.1 hY with rfl | hY
        · exact hAll y (Or.inl hOut)
        · exact hAll y (Or.inr hY)
  | case3 out x stack hOut ih =>
      rw [closeLoop, if_neg hOut]
      rcases ih hPending.take with ⟨hAll, hClosed⟩
      refine ⟨?_, hClosed⟩
      rintro y (hY | hY)
      · exact hAll y (Or.inl (Finset.mem_insert_of_mem hY))
      · rcases List.mem_cons.1 hY with rfl | hY
        · exact hAll y (Or.inl (Finset.mem_insert_self _ _))
        · exact hAll y (Or.inr (List.mem_append_right _ hY))

/- Only what the stack reaches goes out. -/
theorem closeLoop_reached
    {y : α}
    (hMem : y ∈ closeLoop next out stack) :
    y ∈ out ∨ ∃ x ∈ stack, Relation.ReflTransGen
      (fun a b => b ∈ next a) x y := by
  induction out, stack using closeLoop.induct next with
  | case1 out =>
      rw [closeLoop] at hMem
      exact Or.inl hMem
  | case2 out x stack hOut ih =>
      rw [closeLoop, if_pos hOut] at hMem
      rcases ih hMem with hY | ⟨z, hZ, hReach⟩
      · exact Or.inl hY
      · exact Or.inr ⟨z, List.mem_cons_of_mem _ hZ, hReach⟩
  | case3 out x stack hOut ih =>
      rw [closeLoop, if_neg hOut] at hMem
      rcases ih hMem with hY | ⟨z, hZ, hReach⟩
      · rcases Finset.mem_insert.1 hY with rfl | hY
        · exact Or.inr ⟨y, List.mem_cons_self, .refl⟩
        · exact Or.inl hY
      · rcases List.mem_append.1 hZ with hNext | hStack
        · exact Or.inr ⟨x, List.mem_cons_self,
            .head (List.mem_reverse.1 hNext) hReach⟩
        · exact Or.inr ⟨z, List.mem_cons_of_mem _ hStack, hReach⟩

theorem mem_closeLoop_iff
    {x y : α} :
    y ∈ closeLoop next ∅ [x] ↔
      Relation.ReflTransGen (fun a b => b ∈ next a) x y := by
  have hPending : Pending next ∅ [x] := by
    intro z hMem
    exact absurd hMem (Finset.notMem_empty z)
  rcases closeLoop_closed hPending with ⟨hAll, hClosed⟩
  constructor
  · intro hMem
    rcases closeLoop_reached hMem with hY | ⟨z, hZ, hReach⟩
    · exact absurd hY (Finset.notMem_empty y)
    · rw [← List.mem_singleton.1 hZ]
      exact hReach
  · intro hReach
    induction hReach with
    | refl => exact hAll x (Or.inr List.mem_cons_self)
    | tail _ hNext ih =>
        rcases hClosed _ ih _ hNext with hMem | hMem
        · exact hMem
        · cases hMem

end Program

end Borzoi
