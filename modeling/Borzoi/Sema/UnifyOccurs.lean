import Borzoi.Sema.UnifyResolve

/-
  One level of resolution, and the occurs check.
-/

namespace Borzoi

namespace Unify

open InferTable

/- An unbound root. -/
structure Table.IsFree
    (t : Table)
    (v : Nat) :
    Prop where
  lt : v < t.len
  root : t.root v = v
  value : t.value v = none

/- What resolving one level gives. -/
structure ShallowResolves
    (t : Table)
    (ty s : Ty) :
    Prop where
  ranges : t.Over s
  same : ∀ σ, t.Solves σ → s.subst σ = ty.subst σ
  shape : s.head ≠ none ∨ ∃ w, s = .Var w ∧ t.IsFree w

variable {r : Ty}

section OneLevel

variable {t : Table} {ty s : Ty} {n : Nat}

theorem shallowResolve_resolves
    (hGood : t.Good)
    (hOver : t.Over ty)
    (hShallow : shallowResolve n t ty = .ok s) :
    ShallowResolves t ty s := by
  induction n generalizing ty with
  | zero =>
      cases hShallow
  | succ n ih =>
      by_cases hTerm : ty.head = none
      · rcases Ty.var_of_head hTerm with ⟨v, rfl⟩
        have hLt : v < t.len := by
          apply hOver
          rw [Ty.vars]
          exact List.mem_singleton.2 rfl
        unfold shallowResolve at hShallow
        dsimp only at hShallow
        cases hValue : t.probeValue v with
        | none =>
            rw [hValue] at hShallow
            cases hShallow
            have hRoot := hGood.root_root v hLt
            refine ⟨?_, ?_, Or.inr ⟨t.root v, rfl, ?_⟩⟩
            · intro w hMem
              unfold Table.find at hMem
              rw [Ty.vars] at hMem
              rw [List.mem_singleton.1 hMem]
              exact hGood.root_lt v hLt
            · intro σ hSolves
              rw [Ty.subst, Ty.subst]
              exact (hSolves.root v hLt).symm
            · exact ⟨hGood.root_lt v hLt, hRoot, hValue⟩
        | some bound =>
            rw [hValue] at hShallow
            have hBound := ih (hGood.value_over _ bound hValue) hShallow
            refine ⟨hBound.ranges, ?_, hBound.shape⟩
            intro σ hSolves
            rw [hBound.same σ hSolves, Ty.subst]
            exact (hSolves.value v bound hLt hValue).symm
      · rw [shallowResolve_term n hTerm] at hShallow
        cases hShallow
        exact ⟨hOver, fun _ _ => rfl, Or.inl hTerm⟩

theorem shallowResolve_of_resolve
    (hResolve : resolve (n + 1) t ty = .ok r) :
    ∃ s, shallowResolve n t ty = .ok s := by
  unfold resolve at hResolve
  split at hResolve
  · cases hResolve
  · next s hShallow =>
      exact ⟨s, hShallow⟩

theorem shallowResolve_total
    (hAcyclic : WellFounded t.Depends)
    (ty : Ty) :
    ∃ n s, shallowResolve n t ty = .ok s := by
  rcases resolve_total hAcyclic ty with ⟨n, r, hResolve⟩
  cases n with
  | zero =>
      cases hResolve
  | succ n =>
      exact ⟨n, shallowResolve_of_resolve hResolve⟩

end OneLevel

/- Following the bindings of a variable meets the class of `r`. -/
inductive Touches
    (t : Table)
    (r : Nat) :
    Nat → Prop
  | here
      {x : Nat}
      (hRoot : t.root x = r) :
      Touches t r x
  | there
      {x v : Nat}
      (hDepends : t.Depends v x)
      (hTouches : Touches t r v) :
      Touches t r x

/- The type has a variable that meets the class. -/
def TouchesTy
    (t : Table)
    (r : Nat)
    (ty : Ty) :
    Prop :=
  ∃ v ∈ ty.vars, Touches t r v

section Touching

variable {t : Table} {ty s : Ty} {n r v : Nat}

theorem touchesTy_var :
    TouchesTy t r (.Var v) ↔ Touches t r v := by
  unfold TouchesTy
  rw [Ty.vars]
  constructor
  · rintro ⟨w, hMem, hTouches⟩
    rw [List.mem_singleton.1 hMem] at hTouches
    exact hTouches
  · intro hTouches
    exact ⟨v, List.mem_singleton.2 rfl, hTouches⟩

theorem touchesTy_term
    (hTerm : ty.head ≠ none) :
    TouchesTy t r ty ↔ ∃ c ∈ ty.children, TouchesTy t r c := by
  constructor
  · rintro ⟨w, hMem, hTouches⟩
    rcases Ty.child_of_mem_vars hTerm hMem with ⟨c, hChild, hIn⟩
    exact ⟨c, hChild, w, hIn, hTouches⟩
  · rintro ⟨c, hChild, w, hIn, hTouches⟩
    exact ⟨w, Ty.mem_vars_of_child hChild hIn, hTouches⟩

/- A bound variable meets the free classes its binding meets. -/
theorem touches_bound
    {bound : Ty}
    (hFree : t.value r = none)
    (hValue : t.probeValue v = some bound) :
    Touches t r v ↔ TouchesTy t r bound := by
  unfold Table.probeValue at hValue
  constructor
  · intro hTouches
    cases hTouches with
    | here hRoot =>
        rw [hRoot, hFree] at hValue
        cases hValue
    | there hDepends hTouches =>
        rcases hDepends with ⟨ty, hTy, hMem⟩
        rw [hValue] at hTy
        cases hTy
        exact ⟨_, hMem, hTouches⟩
  · rintro ⟨w, hMem, hTouches⟩
    exact .there ⟨bound, hValue, hMem⟩ hTouches

theorem touches_free
    (hValue : t.probeValue v = none) :
    Touches t r v ↔ t.root v = r := by
  unfold Table.probeValue at hValue
  constructor
  · intro hTouches
    cases hTouches with
    | here hRoot =>
        exact hRoot
    | there hDepends _ =>
        rcases hDepends with ⟨ty, hTy, -⟩
        rw [hValue] at hTy
        cases hTy
  · exact .here

/- Resolving one level keeps the free classes that are met. -/
theorem shallowResolve_touches
    (hGood : t.Good)
    (hFree : t.value r = none)
    (hOver : t.Over ty)
    (hShallow : shallowResolve n t ty = .ok s) :
    TouchesTy t r ty ↔ TouchesTy t r s := by
  induction n generalizing ty with
  | zero =>
      cases hShallow
  | succ n ih =>
      by_cases hTerm : ty.head = none
      · rcases Ty.var_of_head hTerm with ⟨v, rfl⟩
        have hLt : v < t.len := by
          apply hOver
          rw [Ty.vars]
          exact List.mem_singleton.2 rfl
        unfold shallowResolve at hShallow
        dsimp only at hShallow
        rw [touchesTy_var]
        cases hValue : t.probeValue v with
        | none =>
            rw [hValue] at hShallow
            cases hShallow
            have hRoot := hGood.root_root v hLt
            have hValue' : t.probeValue (t.find v) = none := by
              unfold Table.find
              unfold Table.probeValue at hValue ⊢
              rw [hRoot]
              exact hValue
            rw [touchesTy_var, touches_free hValue,
              touches_free hValue']
            unfold Table.find
            rw [hRoot]
        | some bound =>
            rw [hValue] at hShallow
            rw [touches_bound hFree hValue]
            exact ih (hGood.value_over _ bound hValue) hShallow
      · rw [shallowResolve_term n hTerm] at hShallow
        cases hShallow
        rfl

/- A class that is met has a smaller image. -/
theorem Touches.size_le
    {σ : Nat → Ty}
    (hGood : t.Good)
    (hSolves : t.Solves σ)
    (hTouches : Touches t r v)
    (hLt : v < t.len) :
    (σ r).size ≤ (σ v).size := by
  induction hTouches with
  | here hRoot =>
      rw [hSolves.root _ hLt, hRoot]
  | there hDepends _ ih =>
      rcases hDepends with ⟨ty, hValue, hMem⟩
      have hInner := ih (hGood.value_over _ ty hValue _ hMem)
      rw [hSolves.value _ ty hLt hValue]
      exact Nat.le_trans hInner (Ty.size_subst_var hMem)

end Touching

section Occurs

variable {t : Table} {ty : Ty} {n v : Nat}

variable {b : Bool} {tys : List Ty} {test : Ty → Except Fault Bool}

theorem occursIn_term
    (hTerm : ty.head ≠ none) :
    occursIn test t v ty = anyType test ty.children := by
  cases ty with
  | Var w =>
      exact absurd rfl hTerm
  | Array elem rank =>
      unfold occursIn Ty.children anyType
      dsimp only
      cases test elem with
      | error e =>
          rfl
      | ok b =>
          cases b with
          | true =>
              rfl
          | false =>
              rfl
  | _ =>
      rfl

theorem anyType_iff
    {P : Ty → Prop}
    (hEach : ∀ c ∈ tys, ∀ b, test c = .ok b → (b = true ↔ P c))
    (hAny : anyType test tys = .ok b) :
    b = true ↔ ∃ c ∈ tys, P c := by
  induction tys with
  | nil =>
      cases hAny
      constructor
      · intro hTrue
        cases hTrue
      · rintro ⟨c, hMem, -⟩
        cases hMem
  | cons c tys ih =>
      unfold anyType at hAny
      rw [List.exists_mem_cons_iff]
      split at hAny
      · next hTest =>
          cases hAny
          constructor
          · intro _
            exact Or.inl
              ((hEach c List.mem_cons_self true hTest).1 rfl)
          · intro _
            rfl
      · next hTest =>
          have hNot : ¬ P c := by
            intro hP
            have hTrue :=
              (hEach c List.mem_cons_self false hTest).2 hP
            cases hTrue
          rw [ih (fun c' hMem => hEach c'
            (List.mem_cons_of_mem _ hMem)) hAny]
          constructor
          · exact Or.inr
          · rintro (hP | hLater)
            · exact absurd hP hNot
            · exact hLater
      · cases hAny

/- The occurs check finds the free classes that a type meets. -/
theorem occurs_iff
    (hGood : t.Good)
    (hFree : t.IsFree v)
    (hOver : t.Over ty)
    (hOccurs : occurs n t v ty = .ok b) :
    b = true ↔ TouchesTy t v ty := by
  induction n generalizing ty b with
  | zero =>
      cases hOccurs
  | succ n ih =>
      unfold occurs at hOccurs
      split at hOccurs
      · cases hOccurs
      · next s hShallow =>
          have hResolves := shallowResolve_resolves hGood hOver hShallow
          rw [shallowResolve_touches hGood hFree.value hOver hShallow]
          rcases hResolves.shape with hTerm | ⟨w, rfl, hFreeW⟩
          · rw [occursIn_term hTerm] at hOccurs
            rw [touchesTy_term hTerm]
            apply anyType_iff _ hOccurs
            intro c hChild b' hTest
            exact ih (hResolves.ranges.child hChild) hTest
          · cases hOccurs
            have hValue : t.probeValue w = none := by
              unfold Table.probeValue
              rw [hFreeW.root]
              exact hFreeW.value
            rw [touchesTy_var, touches_free hValue]
            unfold Table.unioned
            rw [beq_iff_eq, hFree.root]
            exact eq_comm

theorem anyType_total
    (hEach : ∀ c ∈ tys, ∃ b, test c = .ok b) :
    ∃ b, anyType test tys = .ok b := by
  induction tys with
  | nil =>
      exact ⟨false, rfl⟩
  | cons c tys ih =>
      rcases hEach c List.mem_cons_self with ⟨b, hTest⟩
      unfold anyType
      rw [hTest]
      cases b with
      | true =>
          exact ⟨true, rfl⟩
      | false =>
          exact ih fun c' hMem => hEach c' (List.mem_cons_of_mem _ hMem)

theorem mapTypes_mem
    {f : Ty → Except Fault Ty}
    {tys rs : List Ty}
    (hMap : mapTypes f tys = .ok rs) :
    ∀ c ∈ tys, ∃ r, f c = .ok r := by
  induction tys generalizing rs with
  | nil =>
      intro c hMem
      cases hMem
  | cons c tys ih =>
      unfold mapTypes at hMap
      split at hMap
      · cases hMap
      · next r hHead =>
          split at hMap
          · cases hMap
          · next rs' hTail =>
              intro c' hMem
              rcases List.mem_cons.1 hMem with rfl | hIn
              · exact ⟨r, hHead⟩
              · exact ih hTail c' hIn

/- The check takes no more fuel than resolution. -/
theorem occurs_of_resolve
    (hResolve : resolve n t ty = .ok r) :
    ∃ b, occurs n t v ty = .ok b := by
  induction n generalizing ty r with
  | zero =>
      cases hResolve
  | succ n ih =>
      unfold resolve at hResolve
      unfold occurs
      split at hResolve
      · cases hResolve
      · next s hShallow =>
          by_cases hTerm : s.head = none
          · rcases Ty.var_of_head hTerm with ⟨w, rfl⟩
            exact ⟨_, rfl⟩
          · rw [occursIn_term hTerm]
            rcases mapArgs_term hTerm hResolve with ⟨-, hChildren⟩
            apply anyType_total
            intro c hChild
            rcases mapTypes_mem hChildren c hChild with ⟨r', hStep⟩
            exact ih hStep

theorem occurs_total
    (hAcyclic : WellFounded t.Depends)
    (v : Nat)
    (ty : Ty) :
    ∃ n, ∀ m, n ≤ m → ∃ b, occurs m t v ty = .ok b := by
  rcases resolve_total hAcyclic ty with ⟨n, r, hResolve⟩
  refine ⟨n, ?_⟩
  intro m hLe
  exact occurs_of_resolve (resolve_mono hResolve hLe)

end Occurs

end Unify

end Borzoi
