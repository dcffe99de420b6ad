import Mathlib.Data.List.Nodup
import Mathlib.Data.List.Perm.Subperm

/-
  Traversals with an explicit stack.

  A traversal pops an entry, visits it and pushes some of its children.
  Over a forest, where a child has one parent and comes after it, no
  entry is visited twice, so the number of nodes bounds the loop.
-/

namespace Borzoi

namespace Traversal

/- How a loop stops without a result. -/
inductive Fault
  | Panic
  | OutOfFuel
  deriving DecidableEq, Repr

variable {F S : Type}

/- `while let Some(entry) = stack.pop()`, with the top of the stack
   first. -/
def traverse
    (visit : Nat → F → S → Except Fault (S × List (Nat × F))) :
    Nat → List (Nat × F) → S → Except Fault S
  | 0, _, _ => .error .OutOfFuel
  | _ + 1, [], s => .ok s
  | fuel + 1, (i, f) :: stack, s =>
      match visit i f s with
      | .error e => .error e
      | .ok (s', pushed) => traverse visit fuel (pushed.reverse ++ stack) s'

/- Children come after their parent, and have only one. -/
structure Forest
    (n : Nat)
    (children : Nat → List Nat) :
    Prop where
  after : ∀ i c, c ∈ children i → i < c ∧ c < n
  nodup : ∀ i, (children i).Nodup
  parent : ∀ i j c, c ∈ children i → c ∈ children j → i = j

/- What holds of the entries of a traversal. -/
structure Visiting
    (n : Nat)
    (children : Nat → List Nat)
    (visited stack : List Nat) :
    Prop where
  nodup : (stack ++ visited).Nodup
  lt : ∀ i ∈ stack ++ visited, i < n
  parent : ∀ i ∈ stack ++ visited, i = 0 ∨ ∃ p ∈ visited, i ∈ children p

variable {f : F} {stack visited : List Nat} {s : S}

section Visits

variable {n : Nat} {children : Nat → List Nat}

theorem Visiting.start
    (hPos : 0 < n) :
    Visiting n children [] [0] := by
  refine ⟨List.nodup_singleton 0, ?_, ?_⟩
  · intro i hMem
    rw [List.mem_singleton.1 hMem]
    exact hPos
  · intro i hMem
    exact Or.inl (List.mem_singleton.1 hMem)

theorem Visiting.next
    {i : Nat}
    {pushed visited stack : List Nat}
    (hForest : Forest n children)
    (hVisiting : Visiting n children visited (i :: stack))
    (hPushed : pushed.Sublist (children i)) :
    Visiting n children (i :: visited) (pushed.reverse ++ stack) := by
  have hNodup : (i :: (stack ++ visited)).Nodup := hVisiting.nodup
  rcases List.nodup_cons.1 hNodup with ⟨hFresh, hRest⟩
  have hNotVisited : i ∉ visited := fun hMem =>
    hFresh (List.mem_append_right _ hMem)
  -- a child that was met before has another parent
  have hNew : ∀ c ∈ pushed, c ∉ i :: (stack ++ visited) := by
    intro c hChild hMet
    have hMem := hPushed.subset hChild
    have hAfter := hForest.after i c hMem
    rcases List.mem_cons.1 hMet with hSelf | hMet
    · omega
    · rcases hVisiting.parent c (List.mem_cons_of_mem _ hMet) with
        hRoot | ⟨p, hVisited, hChild'⟩
      · omega
      · rw [hForest.parent i p c hMem hChild'] at hNotVisited
        exact hNotVisited hVisited
  have hPerm : List.Perm ((pushed.reverse ++ stack) ++ i :: visited)
      (pushed ++ (i :: (stack ++ visited))) := by
    rw [List.append_assoc]
    apply List.Perm.append (List.reverse_perm pushed)
    exact List.perm_middle
  refine ⟨?_, ?_, ?_⟩
  · rw [hPerm.nodup_iff]
    apply List.Nodup.append (hPushed.nodup (hForest.nodup i)) hNodup
    intro c hChild hMet
    exact hNew c hChild hMet
  · intro c hMem
    rcases List.mem_append.1 (hPerm.subset hMem) with hChild | hMet
    · exact (hForest.after i c (hPushed.subset hChild)).2
    · exact hVisiting.lt c hMet
  · intro c hMem
    rcases List.mem_append.1 (hPerm.subset hMem) with hChild | hMet
    · exact Or.inr ⟨i, List.mem_cons_self, hPushed.subset hChild⟩
    · rcases hVisiting.parent c hMet with hRoot | ⟨p, hVisited, hChild⟩
      · exact Or.inl hRoot
      · exact Or.inr ⟨p, List.mem_cons_of_mem _ hVisited, hChild⟩

theorem Visiting.length_le
    (hVisiting : Visiting n children visited stack) :
    visited.length ≤ n := by
  have hSubset : visited ⊆ List.range n := by
    intro j hMem
    exact List.mem_range.2
      (hVisiting.lt j (List.mem_append_right _ hMem))
  have hNodup := (List.nodup_append.1 hVisiting.nodup).2.1
  have hLength := (hNodup.subperm hSubset).length_le
  rw [List.length_range] at hLength
  exact hLength

variable {visit : Nat → F → S → Except Fault (S × List (Nat × F))}

/- A traversal ends, and what every visit keeps holds at its end. -/
theorem traverse_run
    (P : List Nat → List (Nat × F) → S → Prop)
    (hForest : Forest n children)
    (hPos : 0 < n)
    (hVisit : ∀ visited i f stack s, i < n →
      P visited ((i, f) :: stack) s →
      ∃ s' pushed, visit i f s = .ok (s', pushed) ∧
        (pushed.map Prod.fst).Sublist (children i) ∧
        P (i :: visited) (pushed.reverse ++ stack) s')
    (hStart : P [] [(0, f)] s) :
    ∃ visited s', traverse visit (n + 1) [(0, f)] s = .ok s' ∧
      P visited [] s' ∧ ∀ i ∈ visited, i < n := by
  -- the fuel left is one more than the nodes left
  have hRun : ∀ fuel visited stack s,
      n + 1 ≤ fuel + visited.length →
      Visiting n children visited (stack.map Prod.fst) →
      P visited stack s →
      ∃ visited' s', traverse visit fuel stack s = .ok s' ∧
        P visited' [] s' ∧ ∀ i ∈ visited', i < n := by
    intro fuel
    induction fuel with
    | zero =>
        intro visited stack s hFuel hVisiting hP
        have hLength := hVisiting.length_le
        omega
    | succ fuel ih =>
        intro visited stack s hFuel hVisiting hP
        cases stack with
        | nil =>
            refine ⟨visited, s, rfl, hP, ?_⟩
            intro i hMem
            exact hVisiting.lt i (List.mem_append_right _ hMem)
        | cons entry stack =>
            rcases entry with ⟨i, f⟩
            have hLt : i < n := hVisiting.lt i List.mem_cons_self
            rcases hVisit visited i f stack s hLt hP with
              ⟨s', pushed, hOk, hPushed, hP'⟩
            have hNext := Visiting.next hForest hVisiting hPushed
            rw [← List.map_reverse, ← List.map_append] at hNext
            have hFuel' : n + 1 ≤ fuel + (i :: visited).length := by
              rw [List.length_cons]
              omega
            rcases ih (i :: visited) _ s' hFuel' hNext hP' with
              ⟨visited', s'', hTraverse, hEnd⟩
            refine ⟨visited', s'', ?_, hEnd⟩
            rw [traverse, hOk]
            exact hTraverse
  exact hRun (n + 1) [] [(0, f)] s (Nat.le_refl _)
    (Visiting.start hPos) hStart

end Visits

------------------------------------------------------------
-- Other orders
------------------------------------------------------------

/- A traversal that takes the entries met so far in any order. -/
inductive Traverses
    (visit : Nat → F → S → Except Fault (S × List (Nat × F))) :
    List (Nat × F) → S → Except Fault S → Prop
  | done {s : S} :
      Traverses visit [] s (.ok s)
  | fail {work rest : List (Nat × F)} {i : Nat} {f : F} {s : S} {e : Fault}
      (hPick : work.Perm ((i, f) :: rest))
      (hVisit : visit i f s = .error e) :
      Traverses visit work s (.error e)
  | pick {work rest pushed : List (Nat × F)} {i : Nat} {f : F}
      {s s' : S} {result : Except Fault S}
      (hPick : work.Perm ((i, f) :: rest))
      (hVisit : visit i f s = .ok (s', pushed))
      (hRest : Traverses visit (pushed ++ rest) s' result) :
      Traverses visit work s result

/-
  Visits of two entries can be swapped, up to a relation on states that
  every visit respects.
-/
structure Commuting
    (n : Nat)
    (children : Nat → List Nat)
    (visit : Nat → F → S → Except Fault (S × List (Nat × F)))
    (Valid : S → Prop)
    (Same : S → S → Prop) :
    Prop where
  symm : ∀ s t, Same s t → Same t s
  trans : ∀ s t u, Same s t → Same t u → Same s u
  runs : ∀ i f s, i < n → Valid s →
    ∃ s' pushed, visit i f s = .ok (s', pushed) ∧ Valid s' ∧
      (pushed.map Prod.fst).Sublist (children i)
  congr : ∀ i f s t s' t' p q, Same s t →
    visit i f s = .ok (s', p) → visit i f t = .ok (t', q) →
    p = q ∧ Same s' t'
  swap : ∀ i j f g s s₁ s₂ s₁₂ s₂₁ p p' q q', i ≠ j → Valid s →
    visit i f s = .ok (s₁, p) → visit j g s₁ = .ok (s₁₂, q) →
    visit j g s = .ok (s₂, q') → visit i f s₂ = .ok (s₂₁, p') →
    p = p' ∧ q = q' ∧ Same s₁₂ s₂₁

section Orders

variable {n : Nat} {children : Nat → List Nat}
variable {visit : Nat → F → S → Except Fault (S × List (Nat × F))}
variable {Valid : S → Prop} {Same : S → S → Prop}

theorem Visiting.perm
    {visited stack stack' : List Nat}
    (hVisiting : Visiting n children visited stack)
    (hPerm : stack.Perm stack') :
    Visiting n children visited stack' := by
  have hAll : (stack ++ visited).Perm (stack' ++ visited) :=
    hPerm.append_right visited
  refine ⟨hAll.nodup_iff.1 hVisiting.nodup, ?_, ?_⟩
  · intro i hMem
    exact hVisiting.lt i (hAll.symm.subset hMem)
  · intro i hMem
    exact hVisiting.parent i (hAll.symm.subset hMem)

/- What is left after a visit. -/
theorem Visiting.pick
    {visited : List Nat}
    {work rest pushed : List (Nat × F)}
    {i : Nat}
    {f : F}
    (hForest : Forest n children)
    (hVisiting : Visiting n children visited (work.map Prod.fst))
    (hPick : work.Perm ((i, f) :: rest))
    (hPushed : (pushed.map Prod.fst).Sublist (children i)) :
    Visiting n children (i :: visited)
      ((pushed ++ rest).map Prod.fst) := by
  have hHead := hVisiting.perm (hPick.map Prod.fst)
  have hNext := Visiting.next hForest hHead hPushed
  apply hNext.perm
  rw [List.map_append]
  exact (List.reverse_perm _).append_right _

variable {result : Except Fault S} {work work' : List (Nat × F)}

theorem Traverses.perm
    (hTraverses : Traverses visit work s result)
    (hPerm : work.Perm work') :
    Traverses visit work' s result := by
  cases hTraverses with
  | done =>
      rw [hPerm.nil_eq.symm]
      exact .done
  | fail hPick hVisit => exact .fail (hPerm.symm.trans hPick) hVisit
  | pick hPick hVisit hRest =>
      exact .pick (hPerm.symm.trans hPick) hVisit hRest

/- The last entry first is one of the orders. -/
theorem Traverses.of_traverse
    {fuel : Nat}
    {stack : List (Nat × F)}
    {s final : S}
    (hTraverse : traverse visit fuel stack s = .ok final) :
    Traverses visit stack s (.ok final) := by
  induction fuel generalizing stack s with
  | zero => cases hTraverse
  | succ fuel ih =>
      cases stack with
      | nil =>
          cases hTraverse
          exact .done
      | cons entry stack =>
          rcases entry with ⟨i, f⟩
          rw [traverse] at hTraverse
          cases hVisit : visit i f s with
          | error e =>
              rw [hVisit] at hTraverse
              cases hTraverse
          | ok result =>
              rcases result with ⟨s', pushed⟩
              rw [hVisit] at hTraverse
              have hRest := ih hTraverse
              exact .pick (List.Perm.refl _) hVisit
                (hRest.perm ((List.reverse_perm pushed).append_right _))

/- There is something left to visit for every entry. -/
theorem Visiting.length_add
    (hVisiting : Visiting n children visited stack) :
    stack.length + visited.length ≤ n := by
  have hSubset : stack ++ visited ⊆ List.range n := by
    intro i hMem
    exact List.mem_range.2 (hVisiting.lt i hMem)
  have hLength := (hVisiting.nodup.subperm hSubset).length_le
  rwa [List.length_append, List.length_range] at hLength

/- Some order always reaches the end. -/
theorem Commuting.exists_final
    (hForest : Forest n children)
    (hCommuting : Commuting n children visit Valid Same)
    (hVisiting : Visiting n children visited (work.map Prod.fst))
    (hValid : Valid s) :
    ∃ final, Traverses visit work s (.ok final) := by
  induction hLeft : n - visited.length generalizing visited work s with
  | zero =>
      have hLength := hVisiting.length_add
      rw [List.length_map] at hLength
      have hNil : work = [] := List.eq_nil_of_length_eq_zero (by omega)
      rw [hNil]
      exact ⟨s, .done⟩
  | succ left ih =>
      cases work with
      | nil => exact ⟨s, .done⟩
      | cons entry rest =>
          rcases entry with ⟨i, f⟩
          have hLt : i < n := hVisiting.lt i List.mem_cons_self
          rcases hCommuting.runs i f s hLt hValid with
            ⟨s', pushed, hVisit, hValid', hPushed⟩
          have hNext := hVisiting.pick hForest (List.Perm.refl _) hPushed
          have hFewer : n - (i :: visited).length = left := by
            rw [List.length_cons]
            omega
          rcases ih hNext hValid' hFewer with ⟨final, hRest⟩
          exact ⟨final, .pick (List.Perm.refl _) hVisit hRest⟩

/- No order fails. -/
theorem Commuting.ends
    (hForest : Forest n children)
    (hCommuting : Commuting n children visit Valid Same)
    (hVisiting : Visiting n children visited (work.map Prod.fst))
    (hValid : Valid s)
    (hTraverses : Traverses visit work s result) :
    ∃ final, result = .ok final := by
  induction hTraverses generalizing visited with
  | @done s => exact ⟨s, rfl⟩
  | @fail work rest i f s e hPick hVisit =>
      have hHead := hVisiting.perm (hPick.map Prod.fst)
      have hLt : i < n := hHead.lt i List.mem_cons_self
      rcases hCommuting.runs i f s hLt hValid with ⟨s', pushed, hOk, -⟩
      rw [hVisit] at hOk
      cases hOk
  | @pick work rest pushed i f s s' result hPick hVisit hRest ih =>
      have hHead := hVisiting.perm (hPick.map Prod.fst)
      have hLt : i < n := hHead.lt i List.mem_cons_self
      rcases hCommuting.runs i f s hLt hValid with
        ⟨s'', pushed', hOk, hValid', hPushed⟩
      rw [hVisit] at hOk
      cases hOk
      exact ih (hVisiting.pick hForest hPick hPushed) hValid'

/- Two orders that took different entries can each take the other's. -/
theorem Commuting.diamond
    (hCommuting : Commuting n children visit Valid Same)
    {i j : Nat}
    {f g : F}
    {s t s₁ t₂ : S}
    {p q : List (Nat × F)}
    (hi : i < n)
    (hj : j < n)
    (hNe : i ≠ j)
    (hValid : Valid s)
    (hSame : Same s t)
    (hVisit : visit i f s = .ok (s₁, p))
    (hVisit' : visit j g t = .ok (t₂, q))
    (hValid₁ : Valid s₁)
    (hValid₂ : Valid t₂) :
    ∃ s₁₂ t₂₁, visit j g s₁ = .ok (s₁₂, q) ∧ visit i f t₂ = .ok (t₂₁, p) ∧
      Valid s₁₂ ∧ Valid t₂₁ ∧ Same s₁₂ t₂₁ := by
  rcases hCommuting.runs j g s hj hValid with
    ⟨s₂, q₀, hVisitJ, hValidJ, -⟩
  rcases hCommuting.runs i f s₂ hi hValidJ with ⟨s₂₁, p₀, hVisitJI, -, -⟩
  rcases hCommuting.runs j g s₁ hj hValid₁ with
    ⟨s₁₂, q₁, hVisitIJ, hValid₁₂, -⟩
  rcases hCommuting.runs i f t₂ hi hValid₂ with
    ⟨t₂₁, p₁, hVisitI', hValid₂₁, -⟩
  rcases hCommuting.swap i j f g s s₁ s₂ s₁₂ s₂₁ p p₀ q₁ q₀ hNe
    hValid hVisit hVisitIJ hVisitJ hVisitJI with ⟨rfl, rfl, hSwapped⟩
  rcases hCommuting.congr j g s t s₂ t₂ q₁ q hSame hVisitJ hVisit' with
    ⟨rfl, hSame₂⟩
  rcases hCommuting.congr i f s₂ t₂ s₂₁ t₂₁ p p₁ hSame₂ hVisitJI
    hVisitI' with ⟨rfl, hSame₂₁⟩
  exact ⟨s₁₂, t₂₁, hVisitIJ, hVisitI', hValid₁₂, hValid₂₁,
    hCommuting.trans _ _ _ hSwapped hSame₂₁⟩

/- Every order reaches the same end. -/
theorem Commuting.unique
    (hForest : Forest n children)
    (hCommuting : Commuting n children visit Valid Same)
    {s t a b : S}
    (hVisiting : Visiting n children visited (work.map Prod.fst))
    (hWork : work.Perm work')
    (hValid : Valid s)
    (hValid' : Valid t)
    (hSame : Same s t)
    (hFirst : Traverses visit work s (.ok a))
    (hSecond : Traverses visit work' t (.ok b)) :
    Same a b := by
  induction hLeft : n - visited.length using Nat.strongRecOn
      generalizing visited work work' s t a b with
  | _ left ih =>
  cases hFirst with
  | done =>
      rw [hWork.nil_eq.symm] at hSecond
      cases hSecond with
      | pick hPick =>
          exact absurd hPick.nil_eq (List.cons_ne_nil _ _).symm
      | done => exact hSame
  | @pick _ rest p i f _ s₁ _ hPick hVisit hRest =>
  cases hSecond with
  | done =>
      exact absurd (hWork.symm.trans hPick).nil_eq
        (List.cons_ne_nil _ _).symm
  | @pick _ rest' q j g _ t₂ _ hPick' hVisit' hRest' =>
  have hBoth : ((i, f) :: rest).Perm ((j, g) :: rest') :=
    hPick.symm.trans (hWork.trans hPick')
  have hVisiting' := hVisiting.perm (hWork.map Prod.fst)
  have hi : i < n := by
    apply hVisiting.lt i
    apply List.mem_append_left
    exact (hPick.map Prod.fst).symm.subset List.mem_cons_self
  have hj : j < n := by
    apply hVisiting'.lt j
    apply List.mem_append_left
    exact (hPick'.map Prod.fst).symm.subset List.mem_cons_self
  rcases hCommuting.runs i f s hi hValid with
    ⟨s₁', p', hRun, hValid₁, hPushed⟩
  rw [hVisit] at hRun
  cases hRun
  rcases hCommuting.runs j g t hj hValid' with
    ⟨t₂', q', hRun', hValid₂, hPushed'⟩
  rw [hVisit'] at hRun'
  cases hRun'
  have hNext := hVisiting.pick hForest hPick hPushed
  have hNext' := hVisiting'.pick hForest hPick' hPushed'
  have hRoom := (hVisiting.perm (hPick.map Prod.fst)).length_add
  rw [List.map_cons, List.length_cons] at hRoom
  have hFewer : ∀ k, n - (k :: visited).length < left := by
    intro k
    rw [List.length_cons]
    omega
  by_cases hEntry : i = j
  · -- both orders take the same entry
    subst hEntry
    have hHeads := hVisiting.perm (hPick.map Prod.fst)
    have hFresh := (List.nodup_cons.1 hHeads.nodup).1
    have hTag : (i, g) = (i, f) := by
      rcases List.mem_cons.1 (hBoth.symm.subset List.mem_cons_self) with
        hHere | hLater
      · exact hHere
      · have hMem : i ∈ rest.map Prod.fst :=
          List.mem_map.2 ⟨(i, g), hLater, rfl⟩
        exact absurd (List.mem_append_left _ hMem) hFresh
    cases hTag
    have hSteps := hCommuting.congr i f s t s₁ t₂ p q hSame hVisit hVisit'
    rcases hSteps with ⟨rfl, hSame'⟩
    exact ih _ (hFewer i) hNext (hBoth.cons_inv.append_left p) hValid₁
      hValid₂ hSame' hRest hRest' rfl
  · -- the entry that the other order took first is still there
    have hLater : (j, g) ∈ rest := by
      rcases List.mem_cons.1 (hBoth.symm.subset List.mem_cons_self) with
        hHere | hLater
      · exact absurd (congrArg Prod.fst hHere).symm hEntry
      · exact hLater
    rcases List.append_of_mem hLater with ⟨before, after, rfl⟩
    have hMid : (before ++ (j, g) :: after).Perm
        ((j, g) :: (before ++ after)) := List.perm_middle
    have hMid' : rest'.Perm ((i, f) :: (before ++ after)) := by
      apply List.Perm.cons_inv (a := (j, g))
      exact hBoth.symm.trans ((hMid.cons (i, f)).trans (List.Perm.swap _ _ _))
    rcases hCommuting.diamond hi hj hEntry hValid hSame hVisit hVisit'
      hValid₁ hValid₂ with
      ⟨s₁₂, t₂₁, hVisitIJ, hVisitI', hValid₁₂, hValid₂₁, hCross⟩
    have hSelf : Same s s :=
      hCommuting.trans _ _ _ hSame (hCommuting.symm _ _ hSame)
    have hSelf' : Same t t :=
      hCommuting.trans _ _ _ (hCommuting.symm _ _ hSame) hSame
    have hSelf₁ := (hCommuting.congr i f s s s₁ s₁ p p hSelf hVisit
      hVisit).2
    have hSelf₂ := (hCommuting.congr j g t t t₂ t₂ q q hSelf' hVisit'
      hVisit').2
    have hPickJ : (p ++ (before ++ (j, g) :: after)).Perm
        ((j, g) :: (p ++ (before ++ after))) :=
      (hMid.append_left p).trans List.perm_middle
    have hPickI : (q ++ rest').Perm ((i, f) :: (q ++ (before ++ after))) :=
      (hMid'.append_left q).trans List.perm_middle
    have hLast := hNext.pick hForest hPickJ hPushed'
    have hLast' := hNext'.pick hForest hPickI hPushed
    have hSwap := List.perm_append_comm_assoc q p (before ++ after)
    rcases hCommuting.exists_final hForest hLast hValid₁₂ with ⟨c, hEnd⟩
    rcases hCommuting.exists_final hForest hLast' hValid₂₁ with
      ⟨c', hEnd'⟩
    have hLeftEnd : Same a c := ih _ (hFewer i) hNext (List.Perm.refl _)
      hValid₁ hValid₁ hSelf₁ hRest (.pick hPickJ hVisitIJ hEnd) rfl
    have hRightEnd : Same b c' := ih _ (hFewer j) hNext' (List.Perm.refl _)
      hValid₂ hValid₂ hSelf₂ hRest' (.pick hPickI hVisitI' hEnd') rfl
    have hMeet : Same c c' := by
      refine ih _ ?_ hLast hSwap hValid₁₂ hValid₂₁ hCross hEnd hEnd' rfl
      have hStep := hFewer i
      rw [List.length_cons, List.length_cons]
      rw [List.length_cons] at hStep
      omega
    exact hCommuting.trans _ _ _ hLeftEnd
      (hCommuting.trans _ _ _ hMeet (hCommuting.symm _ _ hRightEnd))

/- The traversal that takes the last entry first ends as every order does. -/
theorem Commuting.any_order
    (hForest : Forest n children)
    (hPos : 0 < n)
    (hCommuting : Commuting n children visit Valid Same)
    (hValid : Valid s)
    (hSelf : Same s s) :
    ∃ final, traverse visit (n + 1) [(0, f)] s = .ok final ∧ Valid final ∧
      ∀ result, Traverses visit [(0, f)] s result →
        ∃ other, result = .ok other ∧ Same final other := by
  have hRun := traverse_run (fun _ _ s => Valid s) hForest hPos
    (fun _ i f _ s hLt hValid => by
      rcases hCommuting.runs i f s hLt hValid with
        ⟨s', pushed, hVisit, hValid', hPushed⟩
      exact ⟨s', pushed, hVisit, hPushed, hValid'⟩)
    (f := f) hValid
  rcases hRun with ⟨-, final, hTraverse, hValid', -⟩
  refine ⟨final, hTraverse, hValid', ?_⟩
  intro result hOther
  have hStart : Visiting n children [] ([(0, f)].map Prod.fst) :=
    Visiting.start hPos
  rcases hCommuting.ends hForest hStart hValid hOther with ⟨other, hEnd⟩
  subst hEnd
  refine ⟨other, rfl, ?_⟩
  exact hCommuting.unique hForest hStart (List.Perm.refl _) hValid hValid
    hSelf (.of_traverse hTraverse) hOther

end Orders

end Traversal

end Borzoi
