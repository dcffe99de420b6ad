import Borzoi.Sema.UnifyTerms
import Mathlib.Data.Finset.Card

/-
  Resolution against a table.

  The bindings of a table are acyclic when following them from a
  variable always ends.  Then resolution ends, and what it computes
  solves the table.
-/

namespace Borzoi

namespace Unify

open InferTable

variable {xs ys : List Ty} {n v : Nat} {f : Ty → Except Fault Ty}

section Shapes

variable {t : Table} {ty r : Ty}

theorem shallowResolve_term
    (fuel : Nat)
    (hTerm : ty.head ≠ none) :
    shallowResolve (fuel + 1) t ty = .ok ty := by
  cases ty with
  | Var v =>
      exact absurd rfl hTerm
  | _ =>
      rfl

theorem mapTypes_length
    (hMap : mapTypes f xs = .ok ys) :
    ys.length = xs.length := by
  induction xs generalizing ys with
  | nil =>
      cases hMap
      rfl
  | cons x xs ih =>
      unfold mapTypes at hMap
      split at hMap
      · cases hMap
      · split at hMap
        · cases hMap
        · next hRest =>
            cases hMap
            rw [List.length_cons, List.length_cons, ih hRest]

/- Mapping keeps the head and maps the children. -/
theorem mapArgs_ok
    {cs : List Ty}
    (hTerm : ty.head ≠ none)
    (hMap : mapTypes f ty.children = .ok cs) :
    ∃ r, mapArgs f ty = .ok r ∧ r.head = ty.head ∧ r.children = cs := by
  have hLength := mapTypes_length hMap
  cases ty with
  | Var v =>
      exact absurd rfl hTerm
  | Named path args =>
      refine ⟨.Named path cs, ?_, ?_, rfl⟩
      · exact congrArg (Except.map (Ty.Named path)) hMap
      · exact congrArg (fun n => some (Head.named path n)) hLength
  | Project path args =>
      refine ⟨.Project path cs, ?_, ?_, rfl⟩
      · exact congrArg (Except.map (Ty.Project path)) hMap
      · exact congrArg (fun n => some (Head.project path n)) hLength
  | Tuple elems =>
      refine ⟨.Tuple cs, ?_, ?_, rfl⟩
      · exact congrArg (Except.map (Ty.Tuple)) hMap
      · exact congrArg (fun n => some (Head.tuple n)) hLength
  | Array elem rank =>
      unfold Ty.children mapTypes at hMap
      cases hElem : f elem with
      | error e =>
          rw [hElem] at hMap
          cases hMap
      | ok elem' =>
          rw [hElem] at hMap
          cases hMap
          refine ⟨.Array elem' rank, ?_, rfl, rfl⟩
          unfold mapArgs
          dsimp only
          rw [hElem]
          rfl
  | Fun arg ret =>
      unfold Ty.children mapTypes mapTypes at hMap
      cases hArg : f arg with
      | error e =>
          rw [hArg] at hMap
          cases hMap
      | ok arg' =>
          cases hRet : f ret with
          | error e =>
              rw [hArg, hRet] at hMap
              cases hMap
          | ok ret' =>
              rw [hArg, hRet] at hMap
              cases hMap
              refine ⟨.Fun arg' ret', ?_, rfl, rfl⟩
              unfold mapArgs
              dsimp only
              rw [hArg, hRet]
              rfl
  | Param i =>
      cases hMap
      exact ⟨.Param i, rfl, rfl, rfl⟩

theorem mapTypes_of_mapArgs
    (hMap : mapArgs f ty = .ok r) :
    ∃ cs, mapTypes f ty.children = .ok cs := by
  cases hChildren : mapTypes f ty.children with
  | ok cs =>
      exact ⟨cs, rfl⟩
  | error e =>
      exfalso
      cases ty with
      | Named path args =>
          have hError := congrArg (Except.map (Ty.Named path)) hChildren
          cases hMap.symm.trans hError
      | Project path args =>
          have hError := congrArg (Except.map (Ty.Project path)) hChildren
          cases hMap.symm.trans hError
      | Tuple elems =>
          have hError := congrArg (Except.map (Ty.Tuple)) hChildren
          cases hMap.symm.trans hError
      | Array elem rank =>
          unfold mapArgs at hMap
          dsimp only at hMap
          unfold Ty.children mapTypes at hChildren
          cases hElem : f elem with
          | error e' =>
              rw [hElem] at hMap
              cases hMap
          | ok elem' =>
              rw [hElem] at hChildren
              cases hChildren
      | Fun arg ret =>
          unfold mapArgs at hMap
          dsimp only at hMap
          unfold Ty.children mapTypes mapTypes at hChildren
          cases hArg : f arg with
          | error e' =>
              rw [hArg] at hMap
              cases hMap
          | ok arg' =>
              cases hRet : f ret with
              | error e' =>
                  rw [hArg, hRet] at hMap
                  cases hMap
              | ok ret' =>
                  rw [hArg, hRet] at hChildren
                  cases hChildren
      | Param i =>
          cases hChildren
      | Var v =>
          cases hChildren

theorem mapArgs_term
    (hTerm : ty.head ≠ none)
    (hMap : mapArgs f ty = .ok r) :
    r.head = ty.head ∧ mapTypes f ty.children = .ok r.children := by
  rcases mapTypes_of_mapArgs hMap with ⟨cs, hChildren⟩
  rcases mapArgs_ok hTerm hChildren with ⟨r', hMap', hHead, rfl⟩
  rw [hMap] at hMap'
  cases hMap'
  exact ⟨hHead, hChildren⟩

end Shapes

section Fuel

variable {t : Table} {ty r : Ty} {m n : Nat}

theorem shallowResolve_mono
    (hResolve : shallowResolve n t ty = .ok r)
    (hLe : n ≤ m) :
    shallowResolve m t ty = .ok r := by
  induction n generalizing m ty with
  | zero =>
      cases hResolve
  | succ n ih =>
      cases m with
      | zero =>
          omega
      | succ m =>
          cases ty with
          | Var v =>
              unfold shallowResolve at hResolve ⊢
              dsimp only at hResolve ⊢
              cases hValue : t.probeValue v with
              | none =>
                  rw [hValue] at hResolve
                  exact hResolve
              | some bound =>
                  rw [hValue] at hResolve
                  exact ih hResolve (Nat.le_of_succ_le_succ hLe)
          | _ =>
              exact hResolve

variable {g : Ty → Except Fault Ty}

theorem mapTypes_congr
    (hSame : ∀ x ∈ xs, ∀ y, f x = .ok y → g x = .ok y)
    (hMap : mapTypes f xs = .ok ys) :
    mapTypes g xs = .ok ys := by
  induction xs generalizing ys with
  | nil =>
      exact hMap
  | cons x xs ih =>
      unfold mapTypes at hMap ⊢
      split at hMap
      · cases hMap
      · next y hHead =>
          split at hMap
          · cases hMap
          · next ys' hTail =>
              rw [hSame x List.mem_cons_self y hHead,
                ih (fun x' hMem => hSame x'
                  (List.mem_cons_of_mem _ hMem)) hTail]
              exact hMap

theorem mapArgs_congr
    (hSame : ∀ x, ∀ y, f x = .ok y → g x = .ok y)
    (hMap : mapArgs f ty = .ok r) :
    mapArgs g ty = .ok r := by
  by_cases hTerm : ty.head = none
  · rcases Ty.var_of_head hTerm with ⟨v, rfl⟩
    exact hMap
  · rcases mapArgs_term hTerm hMap with ⟨hHead, hChildren⟩
    have hChildren' := mapTypes_congr (fun x _ => hSame x) hChildren
    rcases mapArgs_ok hTerm hChildren' with ⟨r', hMap', hHead', hEq⟩
    rw [hMap']
    apply congrArg
    apply Ty.eq_of_head
    · rw [hHead']
      exact hTerm
    · rw [hHead', hHead]
    · exact hEq

theorem resolve_mono
    (hResolve : resolve n t ty = .ok r)
    (hLe : n ≤ m) :
    resolve m t ty = .ok r := by
  induction n generalizing m ty r with
  | zero =>
      cases hResolve
  | succ n ih =>
      cases m with
      | zero =>
          omega
      | succ m =>
          have hLess := Nat.le_of_succ_le_succ hLe
          unfold resolve at hResolve ⊢
          split at hResolve
          · cases hResolve
          · next resolved hShallow =>
              rw [shallowResolve_mono hShallow hLess]
              apply mapArgs_congr _ hResolve
              intro x y hStep
              exact ih hStep hLess

end Fuel

namespace Table

/- Resolving `x` reads `v` next. -/
def Depends
    (t : Table)
    (v x : Nat) :
    Prop :=
  ∃ ty, t.value (t.root x) = some ty ∧ v ∈ ty.vars

/- The type has only variables of the table. -/
def Over
    (t : Table)
    (ty : Ty) :
    Prop :=
  ∀ v ∈ ty.vars, v < t.len

/- What holds of every table the code builds. -/
structure Good
    (t : Table) :
    Prop where
  root_lt : ∀ v, v < t.len → t.root v < t.len
  root_root : ∀ v, v < t.len → t.root (t.root v) = t.root v
  value_over : ∀ r ty, t.value r = some ty → t.Over ty
  acyclic : WellFounded t.Depends

/- The substitution satisfies what the table says. -/
structure Solves
    (t : Table)
    (σ : Nat → Ty) :
    Prop where
  root : ∀ v, v < t.len → σ v = σ (t.root v)
  value : ∀ v ty, v < t.len → t.value (t.root v) = some ty →
    σ v = ty.subst σ

theorem Over.child
    {t : Table}
    {ty c : Ty}
    (hOver : t.Over ty)
    (hChild : c ∈ ty.children) :
    t.Over c := by
  intro v hMem
  exact hOver v (Ty.mem_vars_of_child hChild hMem)

end Table

section Totality

variable {t : Table} {ty : Ty}

theorem mapTypes_total
    {tys : List Ty}
    (hAll : ∀ c ∈ tys, ∃ n r, resolve n t c = .ok r) :
    ∃ n rs, mapTypes (resolve n t) tys = .ok rs := by
  induction tys with
  | nil =>
      exact ⟨0, [], rfl⟩
  | cons ty tys ih =>
      rcases hAll ty List.mem_cons_self with ⟨m, r, hHead⟩
      rcases ih fun c hMem => hAll c (List.mem_cons_of_mem _ hMem) with
        ⟨n, rs, hTail⟩
      refine ⟨max m n, r :: rs, ?_⟩
      have hHead' := resolve_mono hHead (Nat.le_max_left m n)
      have hTail' : mapTypes (resolve (max m n) t) tys = .ok rs := by
        apply mapTypes_congr _ hTail
        intro x _ y hStep
        exact resolve_mono hStep (Nat.le_max_right m n)
      unfold mapTypes
      rw [hHead', hTail']

/- A term resolves when its variables do. -/
theorem resolve_of_vars
    (hVars : ∀ v ∈ ty.vars, ∃ n r, resolve n t (.Var v) = .ok r) :
    ∃ n r, resolve n t ty = .ok r := by
  induction ty using Ty.byChildren with
  | hVar v =>
      apply hVars
      rw [Ty.vars]
      exact List.mem_singleton.2 rfl
  | hTerm ty hTerm ih =>
      have hChildren : ∀ c ∈ ty.children,
          ∃ n r, resolve n t c = .ok r := by
        intro c hChild
        apply ih c hChild
        intro v hMem
        exact hVars v (Ty.mem_vars_of_child hChild hMem)
      rcases mapTypes_total hChildren with ⟨n, rs, hMap⟩
      have hMap' : mapTypes (resolve (n + 1) t) ty.children =
          .ok rs := by
        apply mapTypes_congr _ hMap
        intro x _ y hStep
        exact resolve_mono hStep (Nat.le_succ n)
      rcases mapArgs_ok hTerm hMap' with ⟨r, hArgs, -⟩
      refine ⟨n + 2, r, ?_⟩
      unfold resolve
      rw [shallowResolve_term n hTerm]
      exact hArgs

/- A bound variable resolves as its binding does. -/
theorem resolve_bound
    {bound r : Ty}
    (hValue : t.probeValue v = some bound)
    (hResolve : resolve n t bound = .ok r) :
    resolve (n + 1) t (.Var v) = .ok r := by
  cases n with
  | zero =>
      cases hResolve
  | succ n =>
      unfold resolve at hResolve ⊢
      have hShallow : shallowResolve (n + 1) t (.Var v) =
          shallowResolve n t bound := by
        rw [shallowResolve, hValue]
      rw [hShallow]
      split at hResolve
      · cases hResolve
      · apply mapArgs_congr _ hResolve
        intro x y hStep
        exact resolve_mono hStep (Nat.le_succ n)

theorem resolve_free
    (hValue : t.probeValue v = none) :
    resolve 2 t (.Var v) = .ok (.Var (t.root v)) := by
  unfold resolve
  rw [shallowResolve]
  dsimp only
  rw [hValue]
  rfl

theorem resolve_var_total
    (hAcyclic : WellFounded t.Depends)
    (v : Nat) :
    ∃ n r, resolve n t (.Var v) = .ok r := by
  induction v using hAcyclic.induction with
  | _ v ih =>
      cases hValue : t.probeValue v with
      | none =>
          exact ⟨2, _, resolve_free hValue⟩
      | some bound =>
          have hBound : ∃ n r, resolve n t bound = .ok r := by
            apply resolve_of_vars
            intro w hMem
            exact ih w ⟨bound, hValue, hMem⟩
          rcases hBound with ⟨n, r, hResolve⟩
          exact ⟨n + 1, r, resolve_bound hValue hResolve⟩

/- Resolution against acyclic bindings ends. -/
theorem resolve_total
    (hAcyclic : WellFounded t.Depends)
    (ty : Ty) :
    ∃ n r, resolve n t ty = .ok r :=
  resolve_of_vars fun v _ => resolve_var_total hAcyclic v

end Totality

section Solutions

variable {t : Table} {ty r : Ty} {σ : Nat → Ty}

open Classical in
/- What every variable resolves to. -/
noncomputable def solved
    (t : Table)
    (v : Nat) :
    Ty :=
  if hTotal : ∃ r n, resolve n t (.Var v) = .ok r then
    hTotal.choose
  else
    .Var v

theorem resolve_unique
    {m n : Nat}
    {r' : Ty}
    (hFirst : resolve m t ty = .ok r)
    (hSecond : resolve n t ty = .ok r') :
    r = r' := by
  have hFirst' := resolve_mono hFirst (Nat.le_max_left m n)
  have hSecond' := resolve_mono hSecond (Nat.le_max_right m n)
  rw [hFirst'] at hSecond'
  exact Except.ok.inj hSecond'

theorem solved_of_resolve
    (hResolve : resolve n t (.Var v) = .ok r) :
    solved t v = r := by
  have hTotal : ∃ r n, resolve n t (.Var v) = .ok r := ⟨r, n, hResolve⟩
  unfold solved
  rw [dif_pos hTotal]
  rcases hTotal.choose_spec with ⟨m, hChosen⟩
  exact resolve_unique hChosen hResolve

theorem mapTypes_solved
    {tys rs : List Ty}
    (hEach : ∀ c ∈ tys, ∀ r, resolve n t c = .ok r →
      r = c.subst (solved t))
    (hMap : mapTypes (resolve n t) tys = .ok rs) :
    rs = tys.map (Ty.subst (solved t)) := by
  induction tys generalizing rs with
  | nil =>
      cases hMap
      rfl
  | cons c tys ih =>
      unfold mapTypes at hMap
      split at hMap
      · cases hMap
      · next r hHead =>
          split at hMap
          · cases hMap
          · next rs' hTail =>
              cases hMap
              rw [List.map_cons, hEach c List.mem_cons_self r hHead,
                ih (fun c' hMem => hEach c'
                  (List.mem_cons_of_mem _ hMem)) hTail]

/- Resolution applies the solution of the table. -/
theorem resolve_eq_subst
    (hResolve : resolve n t ty = .ok r) :
    r = ty.subst (solved t) := by
  induction n generalizing ty r with
  | zero =>
      cases hResolve
  | succ n ih =>
      by_cases hTerm : ty.head = none
      · rcases Ty.var_of_head hTerm with ⟨v, rfl⟩
        rw [Ty.subst]
        exact (solved_of_resolve hResolve).symm
      · unfold resolve at hResolve
        cases n with
        | zero =>
            cases hResolve
        | succ n =>
            rw [shallowResolve_term n hTerm] at hResolve
            rcases mapArgs_term hTerm hResolve with ⟨hHead, hChildren⟩
            apply Ty.eq_of_head
            · rw [hHead]
              exact hTerm
            · rw [hHead, Ty.head_subst hTerm]
            · rw [Ty.children_subst hTerm]
              exact mapTypes_solved (fun c _ r hStep => ih hStep)
                hChildren

theorem solved_free
    (hValue : t.probeValue v = none) :
    solved t v = .Var (t.root v) :=
  solved_of_resolve (resolve_free hValue)

theorem solved_bound
    {bound : Ty}
    (hAcyclic : WellFounded t.Depends)
    (hValue : t.probeValue v = some bound) :
    solved t v = bound.subst (solved t) := by
  rcases resolve_total hAcyclic bound with ⟨n, r, hResolve⟩
  rw [solved_of_resolve (resolve_bound hValue hResolve)]
  exact resolve_eq_subst hResolve

/- What the variables resolve to solves the table. -/
theorem solved_solves
    (hGood : t.Good) :
    t.Solves (solved t) := by
  constructor
  · intro v hLt
    have hRoot := hGood.root_root v hLt
    cases hValue : t.probeValue v with
    | none =>
        have hValue' : t.probeValue (t.root v) = none := by
          unfold Table.probeValue at hValue ⊢
          rw [hRoot]
          exact hValue
        rw [solved_free hValue, solved_free hValue', hRoot]
    | some bound =>
        have hValue' : t.probeValue (t.root v) = some bound := by
          unfold Table.probeValue at hValue ⊢
          rw [hRoot]
          exact hValue
        rw [solved_bound hGood.acyclic hValue,
          solved_bound hGood.acyclic hValue']
  · intro v ty _ hValue
    exact solved_bound hGood.acyclic hValue

/- Every solution factors through what the variables resolve to. -/
theorem solved_factors
    (hGood : t.Good)
    (hSolves : t.Solves σ)
    (v : Nat)
    (hLt : v < t.len) :
    (solved t v).subst σ = σ v := by
  induction v using hGood.acyclic.induction with
  | _ v ih =>
      cases hValue : t.probeValue v with
      | none =>
          rw [solved_free hValue, Ty.subst]
          exact (hSolves.root v hLt).symm
      | some bound =>
          rw [solved_bound hGood.acyclic hValue, Ty.subst_subst,
            hSolves.value v bound hLt hValue]
          apply Ty.subst_congr
          intro w hMem
          apply ih w ⟨bound, hValue, hMem⟩
          exact hGood.value_over _ bound hValue w hMem

theorem resolve_factors
    (hGood : t.Good)
    (hSolves : t.Solves σ)
    (hOver : t.Over ty)
    (hResolve : resolve n t ty = .ok r) :
    r.subst σ = ty.subst σ := by
  rw [resolve_eq_subst hResolve, Ty.subst_subst]
  apply Ty.subst_congr
  intro v hMem
  exact solved_factors hGood hSolves v (hOver v hMem)

end Solutions

end Unify

end Borzoi
