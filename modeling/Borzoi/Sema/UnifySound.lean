import Borzoi.Sema.UnifyOccurs

/-
  Most general unifiers.

  A call that succeeds leaves a table with one equation more, and one
  that fails had no solution.  Every binding and every merge of classes
  uses up a free class.
-/

namespace Borzoi

namespace Unify

open InferTable

/- The number of unbound classes. -/
def freeClasses
    (t : Table) :
    Nat :=
  ((Finset.range t.len).filter fun r =>
    t.root r = r ∧ (t.value r).isNone).card

/- The table has gained the equations, and lost a class if it changed. -/
structure Unifies
    (t : Table)
    (equations : (Nat → Ty) → Prop)
    (t' : Table) :
    Prop where
  good : t'.Good
  len : t'.len = t.len
  solves : ∀ σ, t'.Solves σ ↔ t.Solves σ ∧ equations σ
  fewer : t' = t ∨ freeClasses t' < freeClasses t

variable {v : Nat} {σ : Nat → Ty} {t' : Table}

section Changes

variable {t : Table}

theorem Table.IsFree.mem
    (hFree : t.IsFree v) :
    v ∈ (Finset.range t.len).filter fun r =>
      t.root r = r ∧ (t.value r).isNone := by
  apply Finset.mem_filter.2
  refine ⟨Finset.mem_range.2 hFree.lt, hFree.root, ?_⟩
  rw [hFree.value]
  rfl

/- Fewer free roots, one of which is gone. -/
theorem freeClasses_lt
    (hLen : t'.len = t.len)
    (hFree : t.IsFree v)
    (hGone : ¬ (t'.root v = v ∧ (t'.value v).isNone))
    (hKept : ∀ r, r < t.len → t'.root r = r → (t'.value r).isNone →
      t.root r = r ∧ (t.value r).isNone) :
    freeClasses t' < freeClasses t := by
  apply Finset.card_lt_card
  constructor
  · intro r hMem
    rcases Finset.mem_filter.1 hMem with ⟨hRange, hRoot, hValue⟩
    rw [hLen] at hRange
    apply Finset.mem_filter.2
    exact ⟨hRange, hKept r (Finset.mem_range.1 hRange) hRoot hValue⟩
  · intro hSubset
    exact hGone (Finset.mem_filter.1 (hSubset hFree.mem)).2

variable {x : Nat} {pick : Table → Nat → Nat → Bool}

theorem unifyVarVar_same
    {v : Nat} :
    t.unifyVarVar pick v v = some t :=
  if_pos rfl

theorem unifyVarVar_free
    {v w : Nat}
    (hv : t.IsFree v)
    (hw : t.IsFree w)
    (hNe : v ≠ w) :
    ∃ kept, (kept = v ∨ kept = w) ∧
      t.unifyVarVar pick v w = some (t.redirect v w kept none) := by
  unfold Table.unifyVarVar
  dsimp only
  rw [hv.root, hw.root, if_neg hNe, hv.value, hw.value]
  refine ⟨if pick t v w then v else w, ?_, rfl⟩
  split
  · exact Or.inl rfl
  · exact Or.inr rfl

section Redirect

variable {v w kept : Nat}

theorem redirect_value
    (hv : t.IsFree v)
    (hw : t.IsFree w)
    (hKept : kept = v ∨ kept = w) :
    (t.redirect v w kept none).value = t.value := by
  have hNone : t.value kept = none := by
    rcases hKept with rfl | rfl
    · exact hv.value
    · exact hw.value
  unfold Table.redirect
  dsimp only
  rw [← hNone, Function.update_eq_self]

theorem redirect_root
    (x : Nat) :
    (t.redirect v w kept none).root x =
      if t.root x = v ∨ t.root x = w then kept else t.root x :=
  rfl

/- A bound class keeps its root. -/
theorem redirect_bound
    {ty : Ty}
    (hv : t.IsFree v)
    (hw : t.IsFree w)
    (hKept : kept = v ∨ kept = w)
    (hValue : t.value ((t.redirect v w kept none).root x) = some ty) :
    (t.redirect v w kept none).root x = t.root x := by
  rw [redirect_root] at hValue ⊢
  split at hValue
  · exfalso
    rcases hKept with rfl | rfl
    · rw [hv.value] at hValue
      cases hValue
    · rw [hw.value] at hValue
      cases hValue
  · next hOther =>
      exact if_neg hOther

theorem redirect_good
    (hGood : t.Good)
    (hv : t.IsFree v)
    (hw : t.IsFree w)
    (hKept : kept = v ∨ kept = w) :
    (t.redirect v w kept none).Good := by
  have hValue := redirect_value hv hw hKept
  have hFree : t.IsFree kept := by
    rcases hKept with rfl | rfl
    · exact hv
    · exact hw
  constructor
  · intro x hLt
    rw [redirect_root]
    split
    · exact hFree.lt
    · exact hGood.root_lt x hLt
  · intro x hLt
    rw [redirect_root x]
    split
    · rw [redirect_root, hFree.root]
      exact if_pos hKept
    · next hOther =>
        rw [redirect_root, hGood.root_root x hLt]
        exact if_neg hOther
  · intro r ty hTy
    rw [hValue] at hTy
    exact hGood.value_over r ty hTy
  · apply Subrelation.wf _ hGood.acyclic
    rintro x y ⟨ty, hTy, hMem⟩
    rw [hValue] at hTy
    rw [redirect_bound hv hw hKept hTy] at hTy
    exact ⟨ty, hTy, hMem⟩

theorem redirect_solves
    (hGood : t.Good)
    (hv : t.IsFree v)
    (hw : t.IsFree w)
    (hKept : kept = v ∨ kept = w)
    (σ : Nat → Ty) :
    (t.redirect v w kept none).Solves σ ↔ t.Solves σ ∧ σ v = σ w := by
  have hValue := redirect_value hv hw hKept
  constructor
  · intro hSolves
    have hRoot : ∀ x, x < t.len → σ x = σ (t.root x) := by
      intro x hLt
      have hHere := hSolves.root x hLt
      have hThere := hSolves.root (t.root x) (hGood.root_lt x hLt)
      rw [redirect_root, hGood.root_root x hLt] at hThere
      rw [redirect_root] at hHere
      rw [hHere, hThere]
    have hKeptEq : ∀ x, (x = v ∨ x = w) → x < t.len → t.root x = x →
        σ x = σ kept := by
      intro x hIs hLt hRootX
      have hHere := hSolves.root x hLt
      rw [redirect_root, hRootX, if_pos hIs] at hHere
      exact hHere
    refine ⟨⟨hRoot, ?_⟩, ?_⟩
    · intro x ty hLt hTy
      apply hSolves.value x ty hLt
      rw [hValue, redirect_root]
      split
      · next hIs =>
          exfalso
          rcases hIs with hIs | hIs
          · rw [hIs, hv.value] at hTy
            cases hTy
          · rw [hIs, hw.value] at hTy
            cases hTy
      · exact hTy
    · rw [hKeptEq v (Or.inl rfl) hv.lt hv.root,
        hKeptEq w (Or.inr rfl) hw.lt hw.root]
  · rintro ⟨hSolves, hSame⟩
    constructor
    · intro x hLt
      rw [redirect_root]
      split
      · next hIs =>
          have hX := hSolves.root x hLt
          rcases hIs with hIs | hIs
          · rw [hX, hIs]
            rcases hKept with rfl | rfl
            · rfl
            · exact hSame
          · rw [hX, hIs]
            rcases hKept with rfl | rfl
            · exact hSame.symm
            · rfl
      · exact hSolves.root x hLt
    · intro x ty hLt hTy
      rw [hValue] at hTy
      rw [redirect_bound hv hw hKept hTy] at hTy
      exact hSolves.value x ty hLt hTy

/- Merging two free classes adds their equation. -/
theorem redirect_unifies
    (hGood : t.Good)
    (hv : t.IsFree v)
    (hw : t.IsFree w)
    (hNe : v ≠ w)
    (hKept : kept = v ∨ kept = w) :
    Unifies t (fun σ => σ v = σ w) (t.redirect v w kept none) := by
  have hValue := redirect_value hv hw hKept
  refine ⟨redirect_good hGood hv hw hKept, rfl,
    redirect_solves hGood hv hw hKept, Or.inr ?_⟩
  have hLen : (t.redirect v w kept none).len = t.len := rfl
  -- the other root is gone
  have hStays : ∀ r, r < t.len →
      (t.redirect v w kept none).root r = r →
      ((t.redirect v w kept none).value r).isNone →
      t.root r = r ∧ (t.value r).isNone := by
    intro r hLt hRoot hNone
    rw [hValue] at hNone
    refine ⟨?_, hNone⟩
    rw [redirect_root] at hRoot
    split at hRoot
    · rw [← hRoot]
      rcases hKept with rfl | rfl
      · exact hv.root
      · exact hw.root
    · exact hRoot
  rcases hKept with rfl | rfl
  · apply freeClasses_lt hLen hw _ hStays
    rintro ⟨hRoot, -⟩
    rw [redirect_root, hw.root, if_pos (Or.inr rfl)] at hRoot
    exact hNe hRoot
  · apply freeClasses_lt hLen hv _ hStays
    rintro ⟨hRoot, -⟩
    rw [redirect_root, hv.root, if_pos (Or.inl rfl)] at hRoot
    exact hNe hRoot.symm

end Redirect

section Bind

variable {v : Nat} {term : Ty}

/- The table with a variable bound to a term. -/
def bound
    (t : Table)
    (v : Nat)
    (term : Ty) :
    Table :=
  { t with value := Function.update t.value v (some term) }

theorem unifyVarValue_free
    (hFree : t.IsFree v) :
    t.unifyVarValue v (some term) = some (bound t v term) := by
  unfold Table.unifyVarValue
  rw [hFree.root, hFree.value]
  rfl

theorem bound_value_same :
    (bound t v term).value v = some term := by
  unfold bound
  exact Function.update_self _ _ _

theorem bound_value_other
    {r : Nat}
    (hNe : r ≠ v) :
    (bound t v term).value r = t.value r := by
  unfold bound
  exact Function.update_of_ne hNe _ _

/- What does not meet the class is read as before. -/
theorem acc_of_not_touches
    (hAcc : Acc t.Depends x)
    (hNot : ¬ Touches t v x) :
    Acc (bound t v term).Depends x := by
  induction hAcc with
  | intro x _ ih =>
      constructor
      rintro y ⟨ty, hValue, hMem⟩
      have hNe : t.root x ≠ v := fun hRoot => hNot (.here hRoot)
      have hDepends : t.Depends y x := by
        refine ⟨ty, ?_, hMem⟩
        rw [← hValue]
        exact (bound_value_other hNe).symm
      apply ih y hDepends
      intro hTouches
      exact hNot (.there hDepends hTouches)

theorem bound_acyclic
    (hAcyclic : WellFounded t.Depends)
    (hNot : ¬ TouchesTy t v term) :
    WellFounded (bound t v term).Depends := by
  -- the class itself reads the term, which does not meet it
  have hClass : ∀ x, t.root x = v →
      Acc (bound t v term).Depends x := by
    intro x hRoot
    constructor
    rintro y ⟨ty, hValue, hMem⟩
    have hTy : (bound t v term).value (t.root x) = some ty := hValue
    rw [hRoot, bound_value_same] at hTy
    cases hTy
    apply acc_of_not_touches (hAcyclic.apply y)
    intro hTouches
    exact hNot ⟨y, hMem, hTouches⟩
  constructor
  intro x
  induction x using hAcyclic.induction with
  | _ x ih =>
      by_cases hRoot : t.root x = v
      · exact hClass x hRoot
      · constructor
        rintro y ⟨ty, hValue, hMem⟩
        apply ih y
        refine ⟨ty, ?_, hMem⟩
        rw [← hValue]
        exact (bound_value_other hRoot).symm

theorem bound_good
    (hGood : t.Good)
    (hOver : t.Over term)
    (hNot : ¬ TouchesTy t v term) :
    (bound t v term).Good := by
  refine ⟨hGood.root_lt, hGood.root_root, ?_,
    bound_acyclic hGood.acyclic hNot⟩
  intro r ty hValue
  by_cases hIs : r = v
  · rw [hIs, bound_value_same] at hValue
    cases hValue
    exact hOver
  · rw [bound_value_other hIs] at hValue
    exact hGood.value_over r ty hValue

theorem bound_solves
    (hFree : t.IsFree v)
    (σ : Nat → Ty) :
    (bound t v term).Solves σ ↔ t.Solves σ ∧ σ v = term.subst σ := by
  constructor
  · intro hSolves
    refine ⟨⟨hSolves.root, ?_⟩, ?_⟩
    · intro x ty hLt hValue
      apply hSolves.value x ty hLt
      have hNe : t.root x ≠ v := by
        intro hIs
        rw [hIs, hFree.value] at hValue
        cases hValue
      rw [← hValue]
      exact bound_value_other hNe
    · apply hSolves.value v term hFree.lt
      have hRoot : (bound t v term).root v = v := hFree.root
      rw [hRoot]
      exact bound_value_same
  · rintro ⟨hSolves, hSame⟩
    refine ⟨hSolves.root, ?_⟩
    intro x ty hLt hValue
    have hTy : (bound t v term).value (t.root x) = some ty := hValue
    by_cases hIs : t.root x = v
    · rw [hIs, bound_value_same] at hTy
      cases hTy
      rw [hSolves.root x hLt, hIs]
      exact hSame
    · rw [bound_value_other hIs] at hTy
      exact hSolves.value x ty hLt hTy

/- Binding a free variable adds its equation. -/
theorem bound_unifies
    (hGood : t.Good)
    (hFree : t.IsFree v)
    (hOver : t.Over term)
    (hNot : ¬ TouchesTy t v term) :
    Unifies t (fun σ => σ v = term.subst σ) (bound t v term) := by
  refine ⟨bound_good hGood hOver hNot, rfl, bound_solves hFree,
    Or.inr ?_⟩
  have hLen : (bound t v term).len = t.len := rfl
  apply freeClasses_lt hLen hFree
  · rintro ⟨-, hNone⟩
    rw [bound_value_same] at hNone
    cases hNone
  · intro r _ hRoot hNone
    refine ⟨hRoot, ?_⟩
    by_cases hIs : r = v
    · rw [hIs, bound_value_same] at hNone
      cases hNone
    · rw [bound_value_other hIs] at hNone
      exact hNone

/- A term that meets the class cannot be equal to it. -/
theorem touches_no_solution
    (hGood : t.Good)
    (hTerm : term.head ≠ none)
    (hOver : t.Over term)
    (hTouches : TouchesTy t v term)
    (hSolves : t.Solves σ) :
    σ v ≠ term.subst σ := by
  intro hSame
  rcases hTouches with ⟨w, hMem, hTouches⟩
  have hLe := hTouches.size_le hGood hSolves (hOver w hMem)
  have hLt : (σ w).size < (term.subst σ).size :=
    Ty.size_subst_var_lt hTerm hMem
  rw [hSame] at hLe
  omega

end Bind

end Changes

------------------------------------------------------------
-- Unification
------------------------------------------------------------

/- What a result says of the equations. -/
def Meets
    (t : Table)
    (equations : (Nat → Ty) → Prop)
    (result : Except UnifyError Unit × Table) :
    Prop :=
  match result with
  | (.ok (), t') => Unifies t equations t'
  | (.error _, _) => ∀ σ, t.Solves σ → ¬ equations σ

section Unification

variable {pick : Table → Nat → Nat → Bool} {t : Table} {a b : Ty}
variable {result : Except UnifyError Unit × Table}

theorem Meets.congr
    {equations equations' : (Nat → Ty) → Prop}
    (hSame : ∀ σ, t.Solves σ → (equations σ ↔ equations' σ))
    (hMeets : Meets t equations result) :
    Meets t equations' result := by
  rcases result with ⟨res, t'⟩
  cases res with
  | error e =>
      intro σ hSolves hEq
      exact hMeets σ hSolves ((hSame σ hSolves).2 hEq)
  | ok u =>
      have hUnifies : Unifies t equations t' := hMeets
      refine ⟨hUnifies.good, hUnifies.len, ?_, hUnifies.fewer⟩
      intro σ
      rw [hUnifies.solves σ]
      constructor
      · rintro ⟨hSolves, hEq⟩
        exact ⟨hSolves, (hSame σ hSolves).1 hEq⟩
      · rintro ⟨hSolves, hEq⟩
        exact ⟨hSolves, (hSame σ hSolves).2 hEq⟩

theorem Unifies.refl
    {equations : (Nat → Ty) → Prop}
    (hGood : t.Good)
    (hAll : ∀ σ, equations σ) :
    Unifies t equations t := by
  refine ⟨hGood, rfl, ?_, Or.inl rfl⟩
  intro σ
  constructor
  · intro hSolves
    exact ⟨hSolves, hAll σ⟩
  · exact And.left

variable {n : Nat} {step : Table → Ty → Ty → Unified}

theorem bindVar_meets
    {term : Ty}
    (hGood : t.Good)
    (hFree : t.IsFree v)
    (hTerm : term.head ≠ none)
    (hOver : t.Over term)
    (hBind : bindVar n t v term = .ok result) :
    Meets t (fun σ => σ v = term.subst σ) result := by
  unfold bindVar at hBind
  split at hBind
  · cases hBind
  · next hOccurs =>
      cases hBind
      have hTouches := (occurs_iff hGood hFree hOver hOccurs).1 rfl
      intro σ hSolves
      exact touches_no_solution hGood hTerm hOver hTouches hSolves
  · next hOccurs =>
      have hNot : ¬ TouchesTy t v term := by
        intro hTouches
        have hTrue :=
          (occurs_iff hGood hFree hOver hOccurs).2 hTouches
        cases hTrue
      rw [unifyVarValue_free hFree] at hBind
      cases hBind
      exact bound_unifies hGood hFree hOver hNot

/- The equations of paired types. -/
def PairsEqual
    (pairs : List (Ty × Ty))
    (σ : Nat → Ty) :
    Prop :=
  ∀ pair ∈ pairs, pair.1.subst σ = pair.2.subst σ

theorem pairsEqual_zip
    {xs ys : List Ty}
    (hLength : xs.length = ys.length) :
    PairsEqual (xs.zip ys) σ ↔
      xs.map (Ty.subst σ) = ys.map (Ty.subst σ) := by
  induction xs generalizing ys with
  | nil =>
      cases ys with
      | nil =>
          constructor
          · intro _
            rfl
          · intro _ pair hMem
            cases hMem
      | cons y ys =>
          cases hLength
  | cons x xs ih =>
      cases ys with
      | nil =>
          cases hLength
      | cons y ys =>
          unfold PairsEqual at ih ⊢
          rw [List.zip_cons_cons, List.forall_mem_cons,
            ih (Nat.succ.inj hLength), List.map_cons, List.map_cons,
            List.cons.injEq]

/- The guard of the code is the negation of ours. -/
theorem if_arity
    {α : Type}
    {differ same : Prop}
    [Decidable differ]
    [Decidable same]
    {x y : α}
    (hGuard : differ ↔ ¬ same) :
    (if differ then y else x) = if same then x else y := by
  by_cases hSame : same
  · rw [if_neg (fun hDiffer => hGuard.1 hDiffer hSame), if_pos hSame]
  · rw [if_pos (hGuard.2 hSame), if_neg hSame]

theorem unifyPairs_single
    {step : Table → Ty → Ty → Unified} :
    unifyPairs step t [(a, b)] = step t a b := by
  unfold unifyPairs
  split
  · next hOk =>
      exact hOk.symm
  · rfl

/- Terms are unified by their heads and their children. -/
theorem unifyRoots_terms
    (ha : a.head ≠ none)
    (hb : b.head ≠ none) :
    unifyRoots step pick n t a b =
      if a.head = b.head then
        unifyPairs step t (a.children.zip b.children)
      else
        .ok (.error .Mismatch, t) := by
  cases a with
  | Var v =>
      exact absurd rfl ha
  | Named p xs =>
      cases b with
      | Var w =>
          exact absurd rfl hb
      | Named q ys =>
          apply if_arity
          simp only [Ty.head, ne_eq, Option.some.injEq, Head.named.injEq,
            not_and_or]
      | _ =>
          exact (if_neg fun hHead => by cases hHead).symm
  | Project p xs =>
      cases b with
      | Var w =>
          exact absurd rfl hb
      | Project q ys =>
          apply if_arity
          simp only [Ty.head, ne_eq, Option.some.injEq,
            Head.project.injEq, not_and_or]
      | _ =>
          exact (if_neg fun hHead => by cases hHead).symm
  | Tuple xs =>
      cases b with
      | Var w =>
          exact absurd rfl hb
      | Tuple ys =>
          exact if_arity (by simp [Ty.head])
      | _ =>
          exact (if_neg fun hHead => by cases hHead).symm
  | Array x m =>
      cases b with
      | Var w =>
          exact absurd rfl hb
      | Array y k =>
          have hPair : unifyPairs step t [(x, y)] = step t x y :=
            unifyPairs_single
          unfold Ty.children
          rw [List.zip_cons_cons, List.zip_nil_left, hPair]
          exact if_arity (by simp [Ty.head])
      | _ =>
          exact (if_neg fun hHead => by cases hHead).symm
  | Fun x r =>
      cases b with
      | Var w =>
          exact absurd rfl hb
      | Fun y s =>
          exact (if_pos rfl).symm
      | _ =>
          exact (if_neg fun hHead => by cases hHead).symm
  | Param i =>
      cases b with
      | Var w =>
          exact absurd rfl hb
      | Param j =>
          by_cases hSame : i = j
          · rw [hSame, if_pos rfl]
            exact if_pos rfl
          · rw [if_neg (by simpa [Ty.head] using hSame)]
            exact if_neg hSame
      | _ =>
          exact (if_neg fun hHead => by cases hHead).symm

theorem Unifies.andThen
    {first second : (Nat → Ty) → Prop}
    (hFirst : Unifies t first t')
    (hSecond : Meets t' second result) :
    Meets t (fun σ => first σ ∧ second σ) result := by
  rcases result with ⟨res, t''⟩
  cases res with
  | error e =>
      rintro σ hSolves ⟨hEq, hLater⟩
      exact hSecond σ ((hFirst.solves σ).2 ⟨hSolves, hEq⟩) hLater
  | ok u =>
      have hUnifies : Unifies t' second t'' := hSecond
      refine ⟨hUnifies.good, hUnifies.len.trans hFirst.len, ?_, ?_⟩
      · intro σ
        rw [hUnifies.solves σ, hFirst.solves σ, and_assoc]
      · rcases hUnifies.fewer with hSame | hLess
        · rw [hSame]
          exact hFirst.fewer
        · rcases hFirst.fewer with hSame | hLess'
          · rw [hSame] at hLess
            exact Or.inr hLess
          · exact Or.inr (Nat.lt_trans hLess hLess')

theorem unifyPairs_meets
    {pairs : List (Ty × Ty)}
    (hGood : t.Good)
    (hStep : ∀ t' pair result, t'.Good → t'.len = t.len →
      pair ∈ pairs → step t' pair.1 pair.2 = .ok result →
      Meets t' (fun σ => pair.1.subst σ = pair.2.subst σ) result)
    (hPairs : unifyPairs step t pairs = .ok result) :
    Meets t (PairsEqual pairs) result := by
  induction pairs generalizing t with
  | nil =>
      cases hPairs
      apply Unifies.refl hGood
      intro σ pair hMem
      cases hMem
  | cons pair pairs ih =>
      rcases pair with ⟨x, y⟩
      unfold unifyPairs at hPairs
      split at hPairs
      · next t' hHead =>
          have hUnifies : Unifies t (fun σ => x.subst σ = y.subst σ) t' :=
            hStep t (x, y) _ hGood rfl List.mem_cons_self hHead
          have hRest := ih hUnifies.good (fun t'' pair result hGood'' hLen
            hMem => hStep t'' pair result hGood''
              (hLen.trans hUnifies.len) (List.mem_cons_of_mem _ hMem))
            hPairs
          apply (hUnifies.andThen hRest).congr
          intro σ _
          unfold PairsEqual
          rw [List.forall_mem_cons]
      · next hStop =>
          have hHead : Meets t (fun σ => x.subst σ = y.subst σ) result :=
            hStep t (x, y) result hGood rfl List.mem_cons_self hPairs
          rcases result with ⟨res, t'⟩
          cases res with
          | ok u =>
              exact absurd hPairs (hStop t')
          | error e =>
              intro σ hSolves hAll
              exact hHead σ hSolves (hAll (x, y) List.mem_cons_self)

/- Unification of types that are resolved one level. -/
theorem unifyRoots_meets
    (hGood : t.Good)
    (ha : t.Over a)
    (hb : t.Over b)
    (hShapeA : a.head ≠ none ∨ ∃ v, a = .Var v ∧ t.IsFree v)
    (hShapeB : b.head ≠ none ∨ ∃ v, b = .Var v ∧ t.IsFree v)
    (hStep : ∀ t' x y result, t'.Good → t'.Over x → t'.Over y →
      step t' x y = .ok result →
      Meets t' (fun σ => x.subst σ = y.subst σ) result)
    (hRoots : unifyRoots step pick n t a b = .ok result) :
    Meets t (fun σ => a.subst σ = b.subst σ) result := by
  rcases hShapeA with hTermA | ⟨v, rfl, hFreeA⟩
  · rcases hShapeB with hTermB | ⟨w, rfl, hFreeB⟩
    · rw [unifyRoots_terms hTermA hTermB] at hRoots
      by_cases hHead : a.head = b.head
      · rw [if_pos hHead] at hRoots
        have hPairs := unifyPairs_meets hGood (by
          intro t' pair result hGood' hLen hMem hHere
          have hMem' := List.of_mem_zip hMem
          have hOverA : t'.Over pair.1 := by
            unfold Table.Over
            rw [hLen]
            exact ha.child hMem'.1
          have hOverB : t'.Over pair.2 := by
            unfold Table.Over
            rw [hLen]
            exact hb.child hMem'.2
          exact hStep t' pair.1 pair.2 result hGood' hOverA hOverB hHere)
          hRoots
        apply hPairs.congr
        intro σ _
        rw [pairsEqual_zip (Ty.children_length hHead),
          Ty.subst_eq_iff hTermA hTermB]
        constructor
        · intro hChildren
          exact ⟨hHead, hChildren⟩
        · exact And.right
      · rw [if_neg hHead] at hRoots
        cases hRoots
        intro σ _ hEq
        exact hHead ((Ty.subst_eq_iff hTermA hTermB).1 hEq).1
    · have hBind : bindVar n t w a = .ok result := by
        rw [← hRoots]
        cases a with
        | Var v =>
            exact absurd rfl hTermA
        | _ =>
            rfl
      apply (bindVar_meets hGood hFreeB hTermA ha hBind).congr
      intro σ _
      rw [Ty.subst_var]
      exact eq_comm
  · rcases hShapeB with hTermB | ⟨w, rfl, hFreeB⟩
    · have hBind : bindVar n t v b = .ok result := by
        rw [← hRoots]
        cases b with
        | Var w =>
            exact absurd rfl hTermB
        | _ =>
            rfl
      apply (bindVar_meets hGood hFreeA hTermB hb hBind).congr
      intro σ _
      rw [Ty.subst_var]
    · have hVars : expect (t.unifyVarVar pick v w) = .ok result := hRoots
      by_cases hSame : v = w
      · rw [hSame, unifyVarVar_same] at hVars
        cases hVars
        apply Unifies.refl hGood
        intro σ
        rw [hSame]
      · rcases unifyVarVar_free hFreeA hFreeB hSame with
          ⟨kept, hKept, hMerged⟩
        rw [hMerged] at hVars
        cases hVars
        have hUnifies : Meets t (fun σ => σ v = σ w)
            (.ok (), t.redirect v w kept none) :=
          redirect_unifies hGood hFreeA hFreeB hSame hKept
        apply hUnifies.congr
        intro σ _
        rw [Ty.subst_var, Ty.subst_var]

/- A result of unification says whether the equation has a solution. -/
theorem unify_meets
    (hGood : t.Good)
    (ha : t.Over a)
    (hb : t.Over b)
    (hUnify : unify pick n t a b = .ok result) :
    Meets t (fun σ => a.subst σ = b.subst σ) result := by
  induction n generalizing t a b result with
  | zero =>
      cases hUnify
  | succ n ih =>
      unfold unify at hUnify
      split at hUnify
      · cases hUnify
      · next a' hShallowA =>
          split at hUnify
          · cases hUnify
          · next b' hShallowB =>
              have hA := shallowResolve_resolves hGood ha hShallowA
              have hB := shallowResolve_resolves hGood hb hShallowB
              have hRoots := unifyRoots_meets hGood hA.ranges hB.ranges
                hA.shape hB.shape
                (fun t' x y result hGood' hx hy => ih hGood' hx hy)
                hUnify
              apply hRoots.congr
              intro σ hSolves
              rw [hA.same σ hSolves, hB.same σ hSolves]

end Unification

end Unify

end Borzoi
