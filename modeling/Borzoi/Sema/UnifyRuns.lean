import Borzoi.Sema.UnifySound

/-
  Runs of the unifier.

  Unification ends: a recursive call works on a smaller term against the
  same table, or against a table with fewer free classes.  The tables of
  a run are those that a sequence of calls reaches from the empty one,
  together with the equations that were accepted.

  Main declarations:
    * `unify_mono`
    * `unify_total`
    * `Reachable`
    * `MostGeneral`
    * `unify_atomic_most_general`
-/

namespace Borzoi

namespace Unify

open InferTable

variable {pairs : List (Ty × Ty)} {v : Nat} {t' : Table}

section Fuel

variable {pick : Table → Nat → Nat → Bool} {t : Table} {a b : Ty}
variable {result : Except UnifyError Unit × Table} {m n : Nat}

variable {found : Bool} {f g : Table → Ty → Ty → Unified}

theorem anyType_congr
    {f g : Ty → Except Fault Bool}
    {tys : List Ty}
    (hSame : ∀ x found, f x = .ok found → g x = .ok found)
    (hAny : anyType f tys = .ok found) :
    anyType g tys = .ok found := by
  induction tys with
  | nil =>
      exact hAny
  | cons x tys ih =>
      unfold anyType at hAny ⊢
      split at hAny
      · next hTest =>
          rw [hSame x true hTest]
          exact hAny
      · next hTest =>
          rw [hSame x false hTest]
          exact ih hAny
      · cases hAny

theorem occurs_mono
    {ty : Ty}
    (hOccurs : occurs n t v ty = .ok found)
    (hLe : n ≤ m) :
    occurs m t v ty = .ok found := by
  induction n generalizing m ty found with
  | zero =>
      cases hOccurs
  | succ n ih =>
      cases m with
      | zero =>
          omega
      | succ m =>
          have hLess := Nat.le_of_succ_le_succ hLe
          unfold occurs at hOccurs ⊢
          split at hOccurs
          · cases hOccurs
          · next s hShallow =>
              rw [shallowResolve_mono hShallow hLess]
              dsimp only
              by_cases hTerm : s.head = none
              · rcases Ty.var_of_head hTerm with ⟨w, rfl⟩
                exact hOccurs
              · rw [occursIn_term hTerm] at hOccurs ⊢
                apply anyType_congr _ hOccurs
                intro x found' hTest
                exact ih hTest hLess

theorem bindVar_mono
    {term : Ty}
    (hBind : bindVar n t v term = .ok result)
    (hLe : n ≤ m) :
    bindVar m t v term = .ok result := by
  unfold bindVar at hBind ⊢
  split at hBind
  · cases hBind
  · next hOccurs =>
      rw [occurs_mono hOccurs hLe]
      exact hBind
  · next hOccurs =>
      rw [occurs_mono hOccurs hLe]
      exact hBind

theorem unifyPairs_congr
    (hSame : ∀ t x y result, f t x y = .ok result →
      g t x y = .ok result)
    (hPairs : unifyPairs f t pairs = .ok result) :
    unifyPairs g t pairs = .ok result := by
  induction pairs generalizing t with
  | nil =>
      exact hPairs
  | cons pair pairs ih =>
      rcases pair with ⟨x, y⟩
      unfold unifyPairs at hPairs ⊢
      split at hPairs
      · next t' hHead =>
          rw [hSame t x y _ hHead]
          exact ih hPairs
      · next hStop =>
          rw [hSame t x y _ hPairs]
          rcases result with ⟨res, t'⟩
          cases res with
          | ok u =>
              exact absurd hPairs (hStop t')
          | error e =>
              rfl

theorem unifyRoots_congr
    (hSame : ∀ t x y result, f t x y = .ok result →
      g t x y = .ok result)
    (hLe : n ≤ m)
    (hRoots : unifyRoots f pick n t a b = .ok result) :
    unifyRoots g pick m t a b = .ok result := by
  by_cases hTermA : a.head = none
  · rcases Ty.var_of_head hTermA with ⟨v, rfl⟩
    cases b with
    | Var w =>
        exact hRoots
    | _ =>
        exact bindVar_mono hRoots hLe
  · by_cases hTermB : b.head = none
    · rcases Ty.var_of_head hTermB with ⟨w, rfl⟩
      cases a with
      | Var v =>
          exact absurd rfl hTermA
      | _ =>
          exact bindVar_mono hRoots hLe
    · rw [unifyRoots_terms hTermA hTermB] at hRoots ⊢
      by_cases hHead : a.head = b.head
      · rw [if_pos hHead] at hRoots ⊢
        exact unifyPairs_congr hSame hRoots
      · rw [if_neg hHead] at hRoots ⊢
        exact hRoots

/- More fuel gives the same result. -/
theorem unify_mono
    (hUnify : unify pick n t a b = .ok result)
    (hLe : n ≤ m) :
    unify pick m t a b = .ok result := by
  induction n generalizing m t a b result with
  | zero =>
      cases hUnify
  | succ n ih =>
      cases m with
      | zero =>
          omega
      | succ m =>
          have hLess := Nat.le_of_succ_le_succ hLe
          unfold unify at hUnify ⊢
          split at hUnify
          · cases hUnify
          · next a' hShallowA =>
              split at hUnify
              · cases hUnify
              · next b' hShallowB =>
                  rw [shallowResolve_mono hShallowA hLess,
                    shallowResolve_mono hShallowB hLess]
                  apply unifyRoots_congr _ hLess hUnify
                  intro t' x y result' hStep
                  exact ih hStep hLess

end Fuel

section Totality

variable {pick : Table → Nat → Nat → Bool} {t : Table} {a b : Ty}

/- A table that the loop over arguments can have reached. -/
structure Later
    (t t' : Table) :
    Prop where
  good : t'.Good
  len : t'.len = t.len
  fewer : t' = t ∨ freeClasses t' < freeClasses t

theorem Later.next
    {t' t'' : Table}
    {equations : (Nat → Ty) → Prop}
    (hLater : Later t t')
    (hUnifies : Unifies t' equations t'') :
    Later t t'' := by
  refine ⟨hUnifies.good, hUnifies.len.trans hLater.len, ?_⟩
  rcases hUnifies.fewer with hSame | hLess
  · rw [hSame]
    exact hLater.fewer
  · rcases hLater.fewer with hSame | hLess'
    · rw [hSame] at hLess
      exact Or.inr hLess
    · exact Or.inr (Nat.lt_trans hLess hLess')

theorem unifyPairs_total
    (hLater : Later t t')
    (hOver : ∀ pair ∈ pairs, t.Over pair.1 ∧ t.Over pair.2)
    (hEach : ∀ t' pair, Later t t' → pair ∈ pairs →
      ∃ n result, unify pick n t' pair.1 pair.2 = .ok result) :
    ∃ n result, unifyPairs (unify pick n) t' pairs = .ok result := by
  induction pairs generalizing t' with
  | nil =>
      exact ⟨0, _, rfl⟩
  | cons pair pairs ih =>
      rcases pair with ⟨x, y⟩
      rcases hEach t' (x, y) hLater List.mem_cons_self with
        ⟨n, ⟨res, t''⟩, hHead⟩
      cases res with
      | error e =>
          refine ⟨n, (.error e, t''), ?_⟩
          unfold unifyPairs
          rw [hHead]
      | ok u =>
          have hHere := hOver (x, y) List.mem_cons_self
          have hOverX : t'.Over x := by
            unfold Table.Over
            rw [hLater.len]
            exact hHere.1
          have hOverY : t'.Over y := by
            unfold Table.Over
            rw [hLater.len]
            exact hHere.2
          have hUnifies : Unifies t' _ t'' :=
            unify_meets hLater.good hOverX hOverY hHead
          rcases ih (hLater.next hUnifies)
            (fun pair hMem => hOver pair (List.mem_cons_of_mem _ hMem))
            (fun t' pair hLater' hMem => hEach t' pair hLater'
              (List.mem_cons_of_mem _ hMem)) with
            ⟨k, result, hTail⟩
          refine ⟨max n k, result, ?_⟩
          unfold unifyPairs
          rw [unify_mono hHead (Nat.le_max_left n k)]
          apply unifyPairs_congr _ hTail
          intro t x y result' hStep
          exact unify_mono hStep (Nat.le_max_right n k)

theorem bindVar_total
    (hGood : t.Good)
    (hFree : t.IsFree v)
    (term : Ty) :
    ∃ n result, bindVar n t v term = .ok result := by
  rcases occurs_total hGood.acyclic v term with ⟨n, hTotal⟩
  rcases hTotal n (Nat.le_refl n) with ⟨found, hOccurs⟩
  unfold bindVar
  refine ⟨n, ?_⟩
  rw [hOccurs]
  cases found with
  | true =>
      exact ⟨_, rfl⟩
  | false =>
      rw [unifyVarValue_free hFree]
      exact ⟨_, rfl⟩

theorem unifyRoots_total
    (hGood : t.Good)
    (ha : t.Over a)
    (hb : t.Over b)
    (hShapeA : a.head ≠ none ∨ ∃ v, a = .Var v ∧ t.IsFree v)
    (hShapeB : b.head ≠ none ∨ ∃ v, b = .Var v ∧ t.IsFree v)
    (hEach : a.head ≠ none → ∀ t' x y, Later t t' → x ∈ a.children →
      t.Over y → ∃ n result, unify pick n t' x y = .ok result) :
    ∃ n result, unifyRoots (unify pick n) pick n t a b = .ok result := by
  rcases hShapeA with hTermA | ⟨v, rfl, hFreeA⟩
  · rcases hShapeB with hTermB | ⟨w, rfl, hFreeB⟩
    · by_cases hHead : a.head = b.head
      · have hLater : Later t t := ⟨hGood, rfl, Or.inl rfl⟩
        have hOver : ∀ pair ∈ a.children.zip b.children,
            t.Over pair.1 ∧ t.Over pair.2 := by
          intro pair hMem
          have hMem' := List.of_mem_zip hMem
          exact ⟨ha.child hMem'.1, hb.child hMem'.2⟩
        rcases unifyPairs_total hLater hOver (by
          intro t' pair hLater' hMem
          exact hEach hTermA t' pair.1 pair.2 hLater'
            (List.of_mem_zip hMem).1 (hOver pair hMem).2) with
          ⟨n, result, hPairs⟩
        refine ⟨n, result, ?_⟩
        rw [unifyRoots_terms hTermA hTermB, if_pos hHead]
        exact hPairs
      · refine ⟨0, (.error .Mismatch, t), ?_⟩
        rw [unifyRoots_terms hTermA hTermB, if_neg hHead]
    · rcases bindVar_total hGood hFreeB a with ⟨n, result, hBind⟩
      refine ⟨n, result, ?_⟩
      rw [← hBind]
      cases a with
      | Var v =>
          exact absurd rfl hTermA
      | _ =>
          rfl
  · rcases hShapeB with hTermB | ⟨w, rfl, hFreeB⟩
    · rcases bindVar_total hGood hFreeA b with ⟨n, result, hBind⟩
      refine ⟨n, result, ?_⟩
      rw [← hBind]
      cases b with
      | Var w =>
          exact absurd rfl hTermB
      | _ =>
          rfl
    · by_cases hSame : v = w
      · refine ⟨0, (.ok (), t), ?_⟩
        unfold unifyRoots
        dsimp only
        rw [hSame, unifyVarVar_same]
        rfl
      · rcases unifyVarVar_free hFreeA hFreeB hSame with
          ⟨kept, -, hMerged⟩
        refine ⟨0, (.ok (), t.redirect v w kept none), ?_⟩
        unfold unifyRoots
        dsimp only
        rw [hMerged]
        rfl

/- With enough fuel there is a result. -/
theorem unify_total
    (hGood : t.Good)
    (ha : t.Over a)
    (hb : t.Over b) :
    ∃ n result, unify pick n t a b = .ok result := by
  -- by the free classes, then by the size of the resolved term
  induction hClasses : freeClasses t using Nat.strongRecOn
    generalizing t a b with
  | _ classes ihClasses =>
      induction hSize : (a.subst (solved t)).size using Nat.strongRecOn
        generalizing a b with
      | _ size ihSize =>
          rcases shallowResolve_total hGood.acyclic a with
            ⟨m, a', hShallowA⟩
          rcases shallowResolve_total hGood.acyclic b with
            ⟨k, b', hShallowB⟩
          have hA := shallowResolve_resolves hGood ha hShallowA
          have hB := shallowResolve_resolves hGood hb hShallowB
          have hSame := hA.same (solved t) (solved_solves hGood)
          have hEach : a'.head ≠ none → ∀ t' x y, Later t t' →
              x ∈ a'.children → t.Over y →
              ∃ n result, unify pick n t' x y = .ok result := by
            intro hTerm t' x y hLater hChild hy
            have hx := hA.ranges.child hChild
            rcases hLater.fewer with rfl | hLess
            · have hSmaller := Ty.size_subst_child
                (σ := solved t') hTerm hChild
              rw [hSame, hSize] at hSmaller
              exact ihSize _ hSmaller hx hy rfl
            · rw [hClasses] at hLess
              apply ihClasses _ hLess hLater.good _ _ rfl
              · unfold Table.Over
                rw [hLater.len]
                exact hx
              · unfold Table.Over
                rw [hLater.len]
                exact hy
          rcases unifyRoots_total hGood hA.ranges hB.ranges hA.shape
            hB.shape hEach with ⟨n, result, hRoots⟩
          have hN : n ≤ max n (max m k) := Nat.le_max_left _ _
          have hM : m ≤ max n (max m k) := by omega
          have hK : k ≤ max n (max m k) := by omega
          refine ⟨max n (max m k) + 1, result, ?_⟩
          unfold unify
          rw [shallowResolve_mono hShallowA hM,
            shallowResolve_mono hShallowB hK]
          apply unifyRoots_congr _ hN hRoots
          intro t' x y result' hStep
          exact unify_mono hStep hN

end Totality

------------------------------------------------------------
-- Runs
------------------------------------------------------------

/- The tables of a run, with the equations accepted on the way. -/
inductive Reachable
    (pick : Table → Nat → Nat → Bool) :
    Table → List (Ty × Ty) → Prop
  | empty :
      Reachable pick Table.empty []
  | fresh
      {t : Table}
      {accepted : List (Ty × Ty)}
      (hReach : Reachable pick t accepted) :
      Reachable pick t.newKey.2 accepted
  | accept
      {t t' : Table}
      {accepted : List (Ty × Ty)}
      {a b : Ty}
      {n : Nat}
      (hReach : Reachable pick t accepted)
      (ha : t.Over a)
      (hb : t.Over b)
      (hCall : unifyAtomic pick n t a b = .ok (.ok (), t')) :
      Reachable pick t' (accepted ++ [(a, b)])
  | reject
      {t t' : Table}
      {accepted : List (Ty × Ty)}
      {a b : Ty}
      {n : Nat}
      {e : UnifyError}
      (hReach : Reachable pick t accepted)
      (ha : t.Over a)
      (hb : t.Over b)
      (hCall : unifyAtomic pick n t a b = .ok (.error e, t')) :
      Reachable pick t' accepted

/- The table stands for the equations. -/
structure StandsFor
    (t : Table)
    (equations : List (Ty × Ty)) :
    Prop where
  good : t.Good
  ranges : ∀ pair ∈ equations, t.Over pair.1 ∧ t.Over pair.2
  solves : ∀ σ, t.Solves σ ↔ PairsEqual equations σ

/- The equations have a unifier. -/
def Unifiable
    (equations : List (Ty × Ty)) :
    Prop :=
  ∃ σ, PairsEqual equations σ

/- The table solves the equations, and every solution factors through
   it. -/
structure MostGeneral
    (t : Table)
    (equations : List (Ty × Ty)) :
    Prop where
  solves : ∀ pair ∈ equations, ∃ n r,
    resolve n t pair.1 = .ok r ∧ resolve n t pair.2 = .ok r
  factors : ∀ σ, PairsEqual equations σ → ∀ ty, t.Over ty → ∀ n r,
    resolve n t ty = .ok r → r.subst σ = ty.subst σ

section Runs

variable {pick : Table → Nat → Nat → Bool} {t : Table}
variable {equations : List (Ty × Ty)} {a b : Ty}

theorem empty_standsFor :
    StandsFor Table.empty [] := by
  refine ⟨⟨?_, ?_, ?_, ?_⟩, List.forall_mem_nil _, ?_⟩
  · intro v hLt
    exact absurd hLt (Nat.not_lt_zero v)
  · intro v _
    rfl
  · intro r ty hValue
    cases hValue
  · constructor
    intro x
    constructor
    rintro y ⟨ty, hValue, -⟩
    cases hValue
  · intro σ
    constructor
    · intro _
      exact List.forall_mem_nil _
    · intro _
      constructor
      · intro v _
        rfl
      · intro v ty _ hValue
        cases hValue

theorem newKey_root
    (hLt : v < t.len) :
    t.newKey.2.root v = t.root v :=
  Function.update_of_ne (Nat.ne_of_lt hLt) _ _

theorem newKey_root_new :
    t.newKey.2.root t.len = t.len :=
  Function.update_self _ _ _

/- The new class is unbound. -/
theorem newKey_value
    {r : Nat}
    {ty : Ty} :
    t.newKey.2.value r = some ty ↔ r ≠ t.len ∧ t.value r = some ty := by
  by_cases hNew : r = t.len
  · have hNone : t.newKey.2.value r = none := by
      rw [hNew]
      exact Function.update_self _ _ _
    rw [hNone]
    constructor
    · intro hValue
      cases hValue
    · rintro ⟨hNe, -⟩
      exact absurd hNew hNe
  · have hSame : t.newKey.2.value r = t.value r :=
      Function.update_of_ne hNew _ _
    rw [hSame]
    constructor
    · intro hValue
      exact ⟨hNew, hValue⟩
    · exact And.right

theorem newKey_good
    (hGood : t.Good) :
    t.newKey.2.Good := by
  constructor
  · intro v hLt
    rcases Nat.lt_succ_iff_lt_or_eq.1 hLt with hOld | hNew
    · rw [newKey_root hOld]
      exact Nat.lt_succ_of_lt (hGood.root_lt v hOld)
    · rw [hNew, newKey_root_new]
      exact Nat.lt_succ_self _
  · intro v hLt
    rcases Nat.lt_succ_iff_lt_or_eq.1 hLt with hOld | hNew
    · rw [newKey_root hOld, newKey_root (hGood.root_lt v hOld),
        hGood.root_root v hOld]
    · rw [hNew, newKey_root_new, newKey_root_new]
  · intro r ty hValue v hMem
    have hOld := hGood.value_over r ty (newKey_value.1 hValue).2 v hMem
    exact Nat.lt_succ_of_lt hOld
  · apply Subrelation.wf _ hGood.acyclic
    rintro x y ⟨ty, hValue, hMem⟩
    refine ⟨ty, ?_, hMem⟩
    have hRoot : t.newKey.2.root y = t.root y := by
      by_cases hNew : y = t.len
      · rw [hNew, newKey_root_new] at hValue
        exact absurd rfl (newKey_value.1 hValue).1
      · exact Function.update_of_ne hNew _ _
    rw [hRoot] at hValue
    exact (newKey_value.1 hValue).2

theorem newKey_solves
    (hGood : t.Good)
    (σ : Nat → Ty) :
    t.newKey.2.Solves σ ↔ t.Solves σ := by
  constructor
  · intro hSolves
    constructor
    · intro v hLt
      rw [hSolves.root v (Nat.lt_succ_of_lt hLt), newKey_root hLt]
    · intro v ty hLt hValue
      apply hSolves.value v ty (Nat.lt_succ_of_lt hLt)
      rw [newKey_root hLt]
      exact newKey_value.2
        ⟨Nat.ne_of_lt (hGood.root_lt v hLt), hValue⟩
  · intro hSolves
    constructor
    · intro v hLt
      rcases Nat.lt_succ_iff_lt_or_eq.1 hLt with hOld | hNew
      · rw [newKey_root hOld]
        exact hSolves.root v hOld
      · rw [hNew, newKey_root_new]
    · intro v ty hLt hValue
      rcases Nat.lt_succ_iff_lt_or_eq.1 hLt with hOld | hNew
      · rw [newKey_root hOld] at hValue
        exact hSolves.value v ty hOld (newKey_value.1 hValue).2
      · rw [hNew, newKey_root_new] at hValue
        exact absurd rfl (newKey_value.1 hValue).1

theorem newKey_standsFor
    (hStands : StandsFor t equations) :
    StandsFor t.newKey.2 equations := by
  refine ⟨newKey_good hStands.good, ?_, ?_⟩
  · intro pair hMem
    rcases hStands.ranges pair hMem with ⟨hFirst, hSecond⟩
    constructor
    · intro v hVar
      exact Nat.lt_succ_of_lt (hFirst v hVar)
    · intro v hVar
      exact Nat.lt_succ_of_lt (hSecond v hVar)
  · intro σ
    rw [newKey_solves hStands.good, hStands.solves]

theorem pairsEqual_snoc
    {σ : Nat → Ty} :
    PairsEqual (equations ++ [(a, b)]) σ ↔
      PairsEqual equations σ ∧ a.subst σ = b.subst σ := by
  unfold PairsEqual
  rw [List.forall_mem_append, List.forall_mem_singleton]

/- A successful step stands for one equation more. -/
theorem unifies_standsFor
    (hStands : StandsFor t equations)
    (ha : t.Over a)
    (hb : t.Over b)
    (hUnifies : Unifies t (fun σ => a.subst σ = b.subst σ) t') :
    StandsFor t' (equations ++ [(a, b)]) := by
  have hOver : ∀ ty, t.Over ty → t'.Over ty := by
    intro ty hTy
    unfold Table.Over
    rw [hUnifies.len]
    exact hTy
  refine ⟨hUnifies.good, ?_, ?_⟩
  · intro pair hMem
    rcases List.mem_append.1 hMem with hOld | hNew
    · rcases hStands.ranges pair hOld with ⟨hFirst, hSecond⟩
      exact ⟨hOver _ hFirst, hOver _ hSecond⟩
    · rw [List.mem_singleton.1 hNew]
      exact ⟨hOver a ha, hOver b hb⟩
  · intro σ
    rw [hUnifies.solves σ, hStands.solves σ, pairsEqual_snoc]

variable {res : Except UnifyError Unit} {n : Nat}

/- What an atomic call leaves. -/
theorem unifyAtomic_cases
    (hCall : unifyAtomic pick n t a b = .ok (res, t')) :
    (res = .ok () ∧ unify pick n t a b = .ok (.ok (), t')) ∨
    (∃ e t'', res = .error e ∧ t' = t ∧
      unify pick n t a b = .ok (.error e, t'')) := by
  unfold unifyAtomic probe at hCall
  split at hCall
  · next hUnify =>
      cases hCall
      exact Or.inl ⟨rfl, hUnify⟩
  · next e t'' hUnify =>
      cases hCall
      exact Or.inr ⟨e, t'', rfl, rfl, hUnify⟩
  · cases hCall

theorem unifyAtomic_standsFor
    (hStands : StandsFor t equations)
    (ha : t.Over a)
    (hb : t.Over b)
    (hCall : unifyAtomic pick n t a b = .ok (.ok (), t')) :
    StandsFor t' (equations ++ [(a, b)]) := by
  rcases unifyAtomic_cases hCall with ⟨-, hUnify⟩ | ⟨e, t'', hRes, -⟩
  · exact unifies_standsFor hStands ha hb
      (unify_meets hStands.good ha hb hUnify)
  · cases hRes

theorem Reachable.standsFor
    (hReach : Reachable pick t equations) :
    StandsFor t equations := by
  induction hReach with
  | empty =>
      exact empty_standsFor
  | fresh _ ih =>
      exact newKey_standsFor ih
  | accept _ ha hb hCall ih =>
      exact unifyAtomic_standsFor ih ha hb hCall
  | reject _ ha hb hCall ih =>
      rcases unifyAtomic_cases hCall with ⟨hRes, -⟩ | ⟨e, t'', -, rfl, -⟩
      · cases hRes
      · exact ih

theorem StandsFor.mostGeneral
    (hStands : StandsFor t equations) :
    MostGeneral t equations := by
  have hSolved :=
    (hStands.solves (solved t)).1 (solved_solves hStands.good)
  constructor
  · intro pair hMem
    rcases resolve_total hStands.good.acyclic pair.1 with
      ⟨m, r, hFirst⟩
    rcases resolve_total hStands.good.acyclic pair.2 with
      ⟨k, r', hSecond⟩
    have hSame : r = r' := by
      rw [resolve_eq_subst hFirst, resolve_eq_subst hSecond]
      exact hSolved pair hMem
    rw [← hSame] at hSecond
    exact ⟨max m k, r, resolve_mono hFirst (Nat.le_max_left m k),
      resolve_mono hSecond (Nat.le_max_right m k)⟩
  · intro σ hEqual ty hOver n r hResolve
    have hSolves := (hStands.solves σ).2 hEqual
    exact resolve_factors hStands.good hSolves hOver hResolve

/- An atomic call has a result, the same with more fuel. -/
theorem unifyAtomic_total
    (hGood : t.Good)
    (ha : t.Over a)
    (hb : t.Over b) :
    ∃ n res t', ∀ m, n ≤ m →
      unifyAtomic pick m t a b = .ok (res, t') := by
  have hTotal : ∃ n result, unify pick n t a b = .ok result :=
    unify_total hGood ha hb
  rcases hTotal with ⟨n, ⟨res, t'⟩, hUnify⟩
  cases res with
  | ok u =>
      refine ⟨n, .ok (), t', ?_⟩
      intro m hLe
      unfold unifyAtomic probe
      dsimp only
      rw [unify_mono hUnify hLe]
  | error e =>
      refine ⟨n, .error e, t, ?_⟩
      intro m hLe
      unfold unifyAtomic probe
      dsimp only
      rw [unify_mono hUnify hLe]

/- Success is having a unifier. -/
theorem unifyAtomic_ok_iff
    (hStands : StandsFor t equations)
    (ha : t.Over a)
    (hb : t.Over b)
    (hCall : unifyAtomic pick n t a b = .ok (res, t')) :
    res = .ok () ↔ Unifiable (equations ++ [(a, b)]) := by
  rcases unifyAtomic_cases hCall with
    ⟨rfl, hUnify⟩ | ⟨e, t'', rfl, rfl, hUnify⟩
  · constructor
    · intro _
      have hAfter := unifyAtomic_standsFor hStands ha hb hCall
      exact ⟨solved t',
        (hAfter.solves _).1 (solved_solves hAfter.good)⟩
    · intro _
      rfl
  · constructor
    · intro hOk
      cases hOk
    · rintro ⟨σ, hEqual⟩
      rcases pairsEqual_snoc.1 hEqual with ⟨hOld, hNew⟩
      have hNone : ∀ σ, t'.Solves σ → ¬ a.subst σ = b.subst σ :=
        unify_meets hStands.good ha hb hUnify
      exact absurd hNew (hNone σ ((hStands.solves σ).2 hOld))

end Runs

/- On every table of a run the bindings are acyclic and resolution ends,
   and an atomic call decides whether the accepted equations and the new
   one have a unifier: if so it leaves a most general one, and else it
   leaves every term as it was. -/
theorem unify_atomic_most_general
    {pick : Table → Nat → Nat → Bool}
    {t : Table}
    {accepted : List (Ty × Ty)}
    (hReach : Reachable pick t accepted) :
    WellFounded t.Depends ∧
    (∀ ty, ∃ n r, ∀ m, n ≤ m → resolve m t ty = .ok r) ∧
    MostGeneral t accepted ∧
    (∀ a b, t.Over a → t.Over b →
      ∃ n res t',
        (∀ m, n ≤ m → unifyAtomic pick m t a b = .ok (res, t')) ∧
        (res = .ok () ↔ Unifiable (accepted ++ [(a, b)])) ∧
        (res = .ok () → MostGeneral t' (accepted ++ [(a, b)])) ∧
        (res ≠ .ok () → ∀ m ty, resolve m t' ty = resolve m t ty)) := by
  have hStands := hReach.standsFor
  refine ⟨hStands.good.acyclic, ?_, hStands.mostGeneral, ?_⟩
  · intro ty
    rcases resolve_total hStands.good.acyclic ty with ⟨n, r, hResolve⟩
    exact ⟨n, r, fun m hLe => resolve_mono hResolve hLe⟩
  · intro a b ha hb
    have hTotal : ∃ n res t', ∀ m, n ≤ m →
        unifyAtomic pick m t a b = .ok (res, t') :=
      unifyAtomic_total hStands.good ha hb
    rcases hTotal with ⟨n, res, t', hCalls⟩
    have hCall := hCalls n (Nat.le_refl n)
    refine ⟨n, res, t', hCalls,
      unifyAtomic_ok_iff hStands ha hb hCall, ?_, ?_⟩
    · rintro rfl
      exact (unifyAtomic_standsFor hStands ha hb hCall).mostGeneral
    · intro hNot m ty
      rcases unifyAtomic_cases hCall with ⟨hOk, -⟩ | ⟨e, t'', -, rfl, -⟩
      · exact absurd hOk hNot
      · rfl

/- Two variables, the first bound to a tuple of the second. -/
theorem unify_atomic_most_general_tuple :
    ∃ t : Table, Reachable (fun _ _ _ => true) t
        [(.Var 0, .Tuple [.Var 1, .Param 0])] ∧
      MostGeneral t [(.Var 0, .Tuple [.Var 1, .Param 0])] := by
  have hTwo : Reachable (fun _ _ _ => true)
      (Table.empty.newKey.2).newKey.2 [] := .fresh (.fresh .empty)
  have hOver : ∀ ty : Ty, ty.vars ⊆ [0, 1] →
      (Table.empty.newKey.2).newKey.2.Over ty := by
    intro ty hSubset v hMem
    have hLess : v ∈ [0, 1] := hSubset hMem
    have hLen : (Table.empty.newKey.2).newKey.2.len = 2 := rfl
    simp only [List.mem_cons, List.not_mem_nil, or_false] at hLess
    omega
  have hOne := hTwo.accept (a := .Var 0)
    (b := .Tuple [.Var 1, .Param 0]) (n := 4)
    (hOver _ (by simp [Ty.vars])) (hOver _ (by simp [Ty.vars, Ty.varsAll]))
    rfl
  exact ⟨_, hOne, (unify_atomic_most_general hOne).2.2.1⟩

end Unify

end Borzoi
