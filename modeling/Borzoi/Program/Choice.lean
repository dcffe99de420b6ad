import Mathlib.Data.List.Basic

/-
  Folding a choice between two elements over a list.

  A choice that returns the greater of two elements in some order picks
  the greatest element of a list, in whatever order the list is folded
  and however often an element occurs.
-/

namespace Borzoi

namespace Choice

open Std

variable {α : Type}

/- The fold of a choice over a list, as `Iterator::reduce`. -/
def pick
    (rule : α → α → α) :
    List α → Option α
  | [] => none
  | x :: rest => some (rest.foldl rule x)

/- An element of the list that none exceeds. -/
def Greatest
    (cmp : α → α → Ordering)
    (l : List α)
    (m : α) :
    Prop :=
  m ∈ l ∧ ∀ x ∈ l, (cmp x m).isLE

/- A choice returns one of two elements, and the greater one. -/
structure Chooses
    (cmp : α → α → Ordering)
    (rule : α → α → α) :
    Prop where
  cases : ∀ a b, rule a b = a ∨ rule a b = b
  left : ∀ a b, (cmp a (rule a b)).isLE
  right : ∀ a b, (cmp b (rule a b)).isLE

variable {cmp : α → α → Ordering} {rule : α → α → α} {l l' : List α} {m m' : α}

theorem pick_eq_none_iff :
    pick rule l = none ↔ l = [] := by
  cases l with
  | nil => exact ⟨fun _ => rfl, fun _ => rfl⟩
  | cons x rest => exact ⟨nofun, nofun⟩

theorem Chooses.foldl_greatest
    [TransCmp cmp]
    (hChooses : Chooses cmp rule)
    (x : α)
    (rest : List α) :
    Greatest cmp (x :: rest) (rest.foldl rule x) := by
  induction rest generalizing x with
  | nil =>
      refine ⟨List.mem_cons_self, ?_⟩
      intro y hy
      have hSelf : cmp x x = .eq := ReflCmp.compare_self
      rw [List.mem_singleton.1 hy, List.foldl_nil, hSelf]
      rfl
  | cons y rest ih =>
      rcases ih (rule x y) with ⟨hMem, hLe⟩
      rw [List.foldl_cons]
      have hFirst := hLe (rule x y) List.mem_cons_self
      refine ⟨?_, ?_⟩
      · rcases List.mem_cons.1 hMem with hHead | hTail
        · rw [hHead]
          rcases hChooses.cases x y with hx | hy
          · rw [hx]
            exact List.mem_cons_self
          · rw [hy]
            exact List.mem_cons_of_mem _ List.mem_cons_self
        · exact List.mem_cons_of_mem _ (List.mem_cons_of_mem _ hTail)
      · intro z hz
        rcases List.mem_cons.1 hz with rfl | hz
        · exact TransCmp.isLE_trans (hChooses.left z y) hFirst
        · rcases List.mem_cons.1 hz with rfl | hz
          · exact TransCmp.isLE_trans (hChooses.right x z) hFirst
          · exact hLe z (List.mem_cons_of_mem _ hz)

/- A choice picks the greatest element. -/
theorem Chooses.greatest
    [TransCmp cmp]
    (hChooses : Chooses cmp rule)
    (hPick : pick rule l = some m) :
    Greatest cmp l m := by
  cases l with
  | nil => cases hPick
  | cons x rest =>
      cases hPick
      exact hChooses.foldl_greatest x rest

/- Where equal elements are the same, lists of the same elements have the
   same greatest one. -/
theorem Greatest.unique
    [TransCmp cmp]
    (hEq : ∀ x ∈ l, ∀ y ∈ l, cmp x y = .eq → x = y)
    (hSame : ∀ x, x ∈ l' ↔ x ∈ l)
    (hGreatest : Greatest cmp l m)
    (hGreatest' : Greatest cmp l' m') :
    m' = m := by
  have hMem : m' ∈ l := (hSame m').1 hGreatest'.1
  have hLow := hGreatest.2 m' hMem
  have hHigh := hGreatest'.2 m ((hSame m).2 hGreatest.1)
  apply hEq m' hMem m hGreatest.1
  have hSwap : cmp m m' = (cmp m' m).swap := OrientedCmp.eq_swap
  rw [hSwap] at hHigh
  cases hCmp : cmp m' m with
  | lt =>
      rw [hCmp] at hHigh
      cases hHigh
  | eq => rfl
  | gt =>
      rw [hCmp] at hLow
      cases hLow

/- In whatever order it is folded, a choice picks the greatest. -/
theorem Chooses.pick_eq
    [TransCmp cmp]
    (hChooses : Chooses cmp rule)
    (hEq : ∀ x ∈ l, ∀ y ∈ l, cmp x y = .eq → x = y)
    (hSame : ∀ x, x ∈ l' ↔ x ∈ l)
    (hGreatest : Greatest cmp l m) :
    pick rule l' = some m := by
  cases hPick : pick rule l' with
  | none =>
      have hNil := pick_eq_none_iff.1 hPick
      rw [hNil] at hSame
      exact absurd ((hSame m).2 hGreatest.1) List.not_mem_nil
  | some m' =>
      rw [Greatest.unique hEq hSame hGreatest (hChooses.greatest hPick)]

end Choice

end Borzoi
