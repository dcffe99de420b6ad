import Borzoi.Sema.Overload

/-
  The two approximations of applicability are ordered.

  An affirmed argument of a closed type has the very closed type of its
  parameter: the equality test compares canonical paths in the end, and
  a proper supertype of a sealed primitive is not sealed.  No affirmed
  position is refuted, so no affirmed candidate is.

  Main declarations:
    * `AssemblyEnv.SealedApart`
    * `closed_eq_of_argAffirms`
    * `mayApply_of_mustApply`
    * `resolveOverload_iff`
    * `overload_approximations_ordered`
-/

namespace Borzoi

namespace Overload

open Unify (Ty)

theorem intercalate_snoc
    (space : List String)
    (name : String) :
    ".".intercalate (space ++ [name]) = dottedOf space name := by
  unfold dottedOf
  induction space with
  | nil =>
      rw [List.nil_append, String.intercalate_singleton]
      rfl
  | cons first space ih =>
      cases space with
      | nil =>
          rw [List.cons_append, List.nil_append,
            String.intercalate_cons_cons, String.intercalate_singleton,
            String.intercalate_singleton]
          rfl
      | cons second space =>
          simp only [List.isEmpty_cons, Bool.false_eq_true, if_false]
            at ih ⊢
          rw [List.cons_append, List.cons_append,
            String.intercalate_cons_cons, ← List.cons_append, ih,
            String.intercalate_cons_cons]
          simp only [String.append_assoc]

theorem intercalate_segments
    (canon : String) :
    ".".intercalate (segments canon) = canon := by
  apply String.toList_inj.1
  rw [String.toList_intercalate, segments, List.map_map]
  have hBack : String.toList ∘ String.ofList = id := by
    funext text
    exact String.toList_ofList
  rw [hBack, List.map_id]
  exact List.intercalate_splitOn '.'

theorem sealedCanonStr_eq
    {dotted canon : String}
    (hSome : sealedCanonStr dotted = some canon) :
    canon = dotted ∧ dotted ∈ sealedPrimitives := by
  have hSame : canon = dotted := by
    simpa using List.find?_some hSome
  refine ⟨hSame, ?_⟩
  rw [← hSame]
  exact List.mem_of_find?_eq_some hSome

variable {arg param : ClosedTy} {rank : Nat} {a : Ty} {p : TypeRef}

/- A matching metadata type has the canonical path of the path. -/
theorem canon_of_namedMatches
    {path : List String}
    (hMatches : namedMatches path p = true)
    (hParam : ClosedTy.ofTypeRef p = some param) :
    (sealedCanonPath path).map .Prim = some param := by
  cases p with
  | Primitive prim =>
      rw [namedMatches] at hMatches
      rw [ClosedTy.ofTypeRef] at hParam
      cases hCanon : primitiveCanon prim with
      | none =>
          rw [hCanon] at hMatches
          cases hMatches
      | some canon =>
          rw [hCanon] at hMatches hParam
          have hJoin : ".".intercalate path = canon := by
            simpa using hMatches
          rw [sealedCanonPath, hJoin]
          exact hParam
  | Named assembly space name typeArgs segmentArities =>
      rw [namedMatches] at hMatches
      rw [ClosedTy.ofTypeRef] at hParam
      simp only [Bool.and_eq_true, beq_iff_eq] at hMatches
      rcases hMatches with ⟨⟨⟨hNongeneric, hLength⟩, hSpace⟩, hName⟩
      have hPath : path = space ++ [name] := by
        have hIn : space.length < path.length := by
          rw [hLength]
          exact Nat.lt_succ_self _
        have hHere : path[space.length] = name :=
          Option.some.inj ((List.getElem?_eq_getElem hIn).symm.trans hName)
        have hEnd : path.drop (space.length + 1) = [] :=
          List.drop_eq_nil_of_le (Nat.le_of_eq hLength)
        have hLast : path.drop space.length = [name] := by
          rw [List.drop_eq_getElem_cons hIn, hHere, hEnd]
        have hSplit := (List.take_append_drop space.length path).symm
        rw [hSpace, hLast] at hSplit
        exact hSplit
      rw [if_pos hNongeneric] at hParam
      rw [sealedCanonPath, hPath, intercalate_snoc]
      exact hParam
  | _ => cases hMatches

/- A vector in the closed set has a sealed primitive as element. -/
theorem ofTy_array
    {elem : Ty}
    (hArg : ClosedTy.ofTy (.Array elem rank) = some arg) :
    ∃ path canon, elem = .Named path [] ∧ sealedCanonPath path = some canon ∧
      arg = .Vector canon := by
  unfold ClosedTy.ofTy at hArg
  split at hArg
  · rename_i hArray
    cases hArray
  · rename_i elem' hArray
    cases hArray
    rcases Option.map_eq_some_iff.1 hArg with ⟨canon, hPrim, rfl⟩
    unfold ClosedTy.primOf at hPrim
    split at hPrim
    · rename_i path
      exact ⟨path, canon, rfl, hPrim, rfl⟩
    · cases hPrim
  · cases hArg

theorem ofTypeRef_array
    {element : TypeRef}
    {sizes : List Nat}
    {lowerBounds : List Int}
    (hParam : ClosedTy.ofTypeRef (.Array element rank sizes lowerBounds) =
      some param) :
    ∃ canon, ClosedTy.ofTypeRef element = some (.Prim canon) ∧
      param = .Vector canon := by
  rw [ClosedTy.ofTypeRef] at hParam
  split at hParam
  · unfold ClosedTy.vectorOf at hParam
    split at hParam
    · rename_i canon hElement
      cases hParam
      exact ⟨canon, hElement, rfl⟩
    · cases hParam
  · cases hParam

/- Types found equal have one closed type. -/
theorem closed_eq_of_tyEquiv
    (hEquiv : tyEquiv a p = true)
    (hArg : ClosedTy.ofTy a = some arg)
    (hParam : ClosedTy.ofTypeRef p = some param) :
    arg = param := by
  cases a with
  | Named path args =>
      rw [tyEquiv, Bool.and_eq_true, List.isEmpty_iff] at hEquiv
      rcases hEquiv with ⟨rfl, hMatches⟩
      have hCanon := canon_of_namedMatches hMatches hParam
      have hSame : some arg = some param := hArg.symm.trans hCanon
      exact Option.some.inj hSame
  | Array elem rank =>
      rcases ofTy_array hArg with ⟨path, canon, rfl, hCanon, rfl⟩
      cases p with
      | Array element rank' sizes lowerBounds =>
          simp only [tyEquiv, Bool.and_eq_true, List.isEmpty_nil,
            true_and] at hEquiv
          rcases ofTypeRef_array hParam with ⟨canon', hElement, rfl⟩
          have hMatch := canon_of_namedMatches hEquiv.2 hElement
          rw [hCanon] at hMatch
          cases hMatch
          rfl
      | _ => cases hEquiv
  | _ => cases hArg

namespace AssemblyEnv

variable (env : AssemblyEnv)

/- The type that a path of the primitive's canonical name leads to. -/
def IsSealed
    (canon : String)
    (handle : env.Handle) :
    Prop :=
  canon ∈ sealedPrimitives ∧
    ∃ path, ".".intercalate path = canon ∧
      env.lookupPath path = some handle

/-
  No sealed primitive is a proper supertype of another sealed
  primitive.
-/
def SealedApart :
    Prop :=
  ∀ canon canon' sub super,
    env.IsSealed canon sub →
      env.IsSealed canon' super →
        super ∈ env.superTypes sub →
          canon = canon'

end AssemblyEnv

section Affirmed

variable {env : AssemblyEnv} {declaring : String}

/- A closed supertype position names a sealed primitive. -/
theorem isSealed_of_resolveSuperHandle
    {super : env.Handle}
    (hSuper : env.resolveSuperHandle p declaring = some super)
    (hParam : ClosedTy.ofTypeRef p = some param) :
    ∃ canon, param = .Prim canon ∧ env.IsSealed canon super := by
  cases p with
  | Primitive prim =>
      rw [ClosedTy.ofTypeRef] at hParam
      rcases Option.map_eq_some_iff.1 hParam with ⟨canon, hCanon, rfl⟩
      rcases Option.bind_eq_some_iff.1 hCanon with
        ⟨dotted, hPrimitive, hSealed⟩
      rcases sealedCanonStr_eq hSealed with ⟨rfl, hMem⟩
      refine ⟨canon, rfl, hMem, segments canon, intercalate_segments canon,
        ?_⟩
      rw [AssemblyEnv.resolveSuperHandle, hPrimitive] at hSuper
      exact hSuper
  | Named assembly space name typeArgs segmentArities =>
      rw [ClosedTy.ofTypeRef] at hParam
      split at hParam
      · rcases Option.map_eq_some_iff.1 hParam with ⟨canon, hSealed, rfl⟩
        rcases sealedCanonStr_eq hSealed with ⟨rfl, hMem⟩
        refine ⟨_, rfl, hMem, space ++ [name], intercalate_snoc space name,
          ?_⟩
        rw [AssemblyEnv.lookupPath, List.getLast?_concat,
          List.dropLast_concat]
        exact env.lookupType_of_resolveBase hSuper
      · cases hParam
  | _ => cases hSuper

section

variable (hSealed : env.SealedApart)

include hSealed

theorem closed_eq_of_isSubtype
    (hSubtype : env.isSubtype a p declaring = true)
    (hArg : ClosedTy.ofTy a = some arg)
    (hParam : ClosedTy.ofTypeRef p = some param) :
    arg = param := by
  unfold AssemblyEnv.isSubtype at hSubtype
  split at hSubtype
  · rename_i path
    split at hSubtype
    · rename_i sub super hSub hSuper
      have hMem : super ∈ env.superTypes sub := of_decide_eq_true hSubtype
      rcases isSealed_of_resolveSuperHandle hSuper hParam with
        ⟨canon', rfl, hSealed'⟩
      rcases Option.map_eq_some_iff.1 hArg with ⟨canon, hCanon, rfl⟩
      rcases sealedCanonStr_eq hCanon with ⟨rfl, hPrimitive⟩
      rw [hSealed _ canon' sub super ⟨hPrimitive, path, rfl, hSub⟩ hSealed'
        hMem]
    · cases hSubtype
  · cases hSubtype

/- An affirmed argument has the closed type of its parameter. -/
theorem closed_eq_of_argAffirms
    (hAffirms : env.argAffirms a p declaring = true)
    (hArg : ClosedTy.ofTy a = some arg)
    (hParam : ClosedTy.ofTypeRef p = some param) :
    arg = param := by
  unfold AssemblyEnv.argAffirms at hAffirms
  split_ifs at hAffirms
  rcases Bool.or_eq_true_iff.1 hAffirms with hEquiv | hSubtype
  · exact closed_eq_of_tyEquiv hEquiv hArg hParam
  · exact closed_eq_of_isSubtype hSealed hSubtype hArg hParam

theorem closedRefuted_of_argAffirms
    (hAffirms : env.argAffirms a p declaring = true)
    (hParam : ClosedTy.ofTypeRef p = some param) :
    env.closedRefuted a param = false := by
  unfold AssemblyEnv.closedRefuted
  split
  · rename_i arg hArg
    rw [closed_eq_of_argAffirms hSealed hAffirms hArg hParam]
    unfold AssemblyEnv.noConversionChannel
    rw [if_pos rfl]
  · rfl

variable {params : List Parameter} {args : List Ty} {group : List env.Candidate}
variable {method : MethodLike}

/- No affirmed position is refuted. -/
theorem someRefuted_of_allAffirmed
    (hAffirmed : env.allAffirmed declaring args params = true) :
    env.someRefuted args params = false := by
  unfold AssemblyEnv.someRefuted
  rw [List.any_eq_false]
  rintro ⟨a, p⟩ hMem hRefuted
  have hAffirms : env.argAffirms a p.ty declaring = true :=
    List.all_eq_true.1 hAffirmed (a, p) hMem
  unfold AssemblyEnv.positionRefuted at hRefuted
  dsimp only at hRefuted
  split_ifs at hRefuted
  split at hRefuted
  · rename_i param hParam
    rw [closedRefuted_of_argAffirms hSealed hAffirms hParam] at hRefuted
    cases hRefuted
  · cases hRefuted

/- Nor is an affirmed surplus argument. -/
theorem expandedRefuted_of_mustApplyExpanded
    (hMust : env.mustApplyExpanded params declaring args = true) :
    env.expandedRefuted params args = false := by
  unfold AssemblyEnv.mustApplyExpanded at hMust
  split_ifs at hMust
  rw [Bool.and_eq_true] at hMust
  rcases hMust with ⟨hFixed, hSurplus⟩
  unfold AssemblyEnv.expandedRefuted
  rw [someRefuted_of_allAffirmed hSealed hFixed, Bool.false_or]
  split
  · rename_i elem hElem
    rcases Option.bind_eq_some_iff.1 hElem with ⟨last, hLast, hClosed⟩
    rw [hLast] at hSurplus
    have hAll : env.surplusAffirmed last.ty declaring
        (args.drop (params.length - 1)) = true := hSurplus
    rw [List.any_eq_false]
    intro a hMem
    unfold AssemblyEnv.closedElement at hClosed
    unfold AssemblyEnv.surplusAffirmed at hAll
    split at hClosed
    · rename_i element rank sizes lowerBounds hTy
      rw [hTy] at hAll
      simp only [Bool.and_eq_true] at hAll
      split_ifs at hClosed
      have hAffirms := List.all_eq_true.1 hAll.2 a hMem
      rw [closedRefuted_of_argAffirms hSealed hAffirms hClosed]
      exact Bool.false_ne_true
    · cases hClosed
  · rfl

end

------------------------------------------------------------
-- The Order
------------------------------------------------------------

/- A trailing parameter array can take no element. -/
theorem one_le_length_omittable
    (hArray : endsInParamArray params = true) :
    1 ≤ (omittable params).length ∧ 1 ≤ params.length := by
  rcases List.eq_nil_or_concat params with rfl | ⟨init, last, rfl⟩
  · cases hArray
  · have hLast : last.isParamArray = true := by
      unfold endsInParamArray at hArray
      rw [List.concat_eq_append, List.getLast?_concat] at hArray
      exact hArray
    unfold omittable
    rw [List.concat_eq_append, List.zipIdx_append, List.reverse_append]
    simp [hLast]

/- The window of a supplied call. -/
theorem contains_of_supplied
    {n : Nat}
    (hDirect : endsInParamArray method.signature.parameters = false →
      n = method.signature.parameters.length)
    (hExpanded : endsInParamArray method.signature.parameters = true →
      method.signature.parameters.length ≤ n + 1) :
    (arityWindow method).contains n = true := by
  unfold ArityWindow.contains arityWindow
  rw [Bool.and_eq_true, decide_eq_true_eq]
  by_cases hArray : endsInParamArray method.signature.parameters = true
  · rcases one_le_length_omittable hArray with ⟨hOne, -⟩
    have hEnough := hExpanded hArray
    simp only [hArray, if_true, Option.all_none, and_true]
    omega
  · have hExact := hDirect (Bool.eq_false_iff.2 hArray)
    simp only [hArray, Bool.false_eq_true, if_false, Option.all_some,
      decide_eq_true_eq]
    omega

/- The under-approximation is inside the over-approximation. -/
theorem mayApply_of_mustApply
    (hSealed : env.SealedApart)
    (hMust : env.mustApply method declaring args = true) :
    env.mayApply method declaring args = true := by
  unfold AssemblyEnv.mustApply at hMust
  dsimp only at hMust
  split_ifs at hMust with _ _ _ hArray
  · -- the expanded form survives
    have hNotRefuted :=
      expandedRefuted_of_mustApplyExpanded hSealed hMust
    have hEnough :
        ¬args.length + 1 < method.signature.parameters.length := by
      intro hFew
      rw [AssemblyEnv.mustApplyExpanded, if_pos hFew] at hMust
      cases hMust
    have hWindow := contains_of_supplied
      (fun hNone => absurd hArray (Bool.eq_false_iff.1 hNone))
      (fun _ => Nat.le_of_not_lt hEnough)
    unfold AssemblyEnv.mayApply
    simp only [hWindow, hArray, hNotRefuted, hEnough, Bool.not_true,
      Bool.not_false, Bool.false_eq_true, if_false, Bool.true_or]
  · -- the only form survives
    rw [Bool.and_eq_true, beq_iff_eq] at hMust
    have hNotRefuted := someRefuted_of_allAffirmed hSealed hMust.2
    have hWindow := contains_of_supplied (fun _ => hMust.1)
      (fun hSome => absurd hSome hArray)
    unfold AssemblyEnv.mayApply
    simp only [hWindow, hArray, hNotRefuted, Bool.not_true,
      Bool.not_false, Bool.false_eq_true, if_false, if_true]

variable {args : List Ty}

theorem may_of_must
    {c : env.Candidate}
    (hSealed : env.SealedApart)
    (hMust : env.candidateMust args c = true) :
    env.candidateMay args c = true :=
  mayApply_of_mustApply hSealed hMust

/- A resolved candidate is the only survivor, and affirmed. -/
theorem resolveOverload_eq_some_iff
    {winner : env.Candidate} :
    env.resolveOverload group args = some winner ↔
      group.filter (env.candidateMay args) = [winner] ∧
        env.candidateMust args winner = true := by
  unfold AssemblyEnv.resolveOverload
  split
  · rename_i hFilter
    simp [hFilter]
  · rename_i c hFilter
    rw [hFilter]
    by_cases hMust : env.candidateMust args c = true
    · rw [if_pos hMust]
      constructor
      · rintro ⟨⟩
        exact ⟨rfl, hMust⟩
      · rintro ⟨hSame, -⟩
        rw [List.singleton_inj.1 hSame]
    · rw [if_neg hMust]
      constructor
      · intro hNone
        cases hNone
      · rintro ⟨hSame, hWinner⟩
        rw [List.singleton_inj.1 hSame] at hMust
        exact absurd hWinner hMust
  · rename_i c d rest hFilter
    simp [hFilter]

/- The winner is affirmed, and every other candidate is refuted. -/
theorem resolveOverload_iff
    {winner : env.Candidate}
    (hSealed : env.SealedApart) :
    env.resolveOverload group args = some winner ↔
      ∃ before after, group = before ++ winner :: after ∧
        env.candidateMust args winner = true ∧
          ∀ c ∈ before ++ after, env.candidateMay args c = false := by
  rw [resolveOverload_eq_some_iff, List.filter_eq_cons_iff]
  constructor
  · rintro ⟨⟨before, after, hGroup, hBefore, -, hAfter⟩, hMust⟩
    refine ⟨before, after, hGroup, hMust, ?_⟩
    intro c hMem
    rcases List.mem_append.1 hMem with hMem | hMem
    · exact Bool.eq_false_iff.2 (hBefore c hMem)
    · exact Bool.eq_false_iff.2 (List.filter_eq_nil_iff.1 hAfter c hMem)
  · rintro ⟨before, after, hGroup, hMust, hOthers⟩
    refine ⟨⟨before, after, hGroup, ?_, may_of_must hSealed hMust, ?_⟩,
      hMust⟩
    · intro c hMem
      exact Bool.eq_false_iff.1
        (hOthers c (List.mem_append_left _ hMem))
    · apply List.filter_eq_nil_iff.2
      intro c hMem
      exact Bool.eq_false_iff.1
        (hOthers c (List.mem_append_right _ hMem))

/- The order of the group does not matter. -/
theorem resolveOverload_perm
    {group group' : List env.Candidate}
    (hPerm : group.Perm group') :
    env.resolveOverload group args = env.resolveOverload group' args := by
  have hSurvivors := hPerm.filter (env.candidateMay args)
  apply Option.ext
  intro winner
  rw [resolveOverload_eq_some_iff, resolveOverload_eq_some_iff]
  have hOne : group.filter (env.candidateMay args) = [winner] ↔
      group'.filter (env.candidateMay args) = [winner] := by
    rw [← List.perm_singleton, ← List.perm_singleton]
    exact ⟨hSurvivors.symm.trans, hSurvivors.trans⟩
  rw [hOne]

end Affirmed

/-
  What is affirmed is never refuted; so a call resolves to exactly the
  affirmed candidate whose rivals are all refuted, in whatever order
  they come.
-/
theorem overload_approximations_ordered
    (env : AssemblyEnv)
    (hSealed : env.SealedApart) :
    (∀ method declaring args,
      env.mustApply method declaring args = true →
        env.mayApply method declaring args = true) ∧
    (∀ group args winner,
      env.resolveOverload group args = some winner ↔
        ∃ before after, group = before ++ winner :: after ∧
          env.candidateMust args winner = true ∧
            ∀ c ∈ before ++ after, env.candidateMay args c = false) ∧
    (∀ group group' args, group.Perm group' →
      env.resolveOverload group args = env.resolveOverload group' args) :=
  ⟨fun _ _ _ hMust => mayApply_of_mustApply hSealed hMust,
    fun _ _ _ => resolveOverload_iff hSealed,
    fun _ _ _ hPerm => resolveOverload_perm hPerm⟩

/- `System.Object`, with `System.Int32` and `System.String` below it. -/
def coreTypes :
    AssemblyEnv where
  size := 3
  entity := fun handle =>
    { assembly := "System.Runtime"
      access := .Public
      baseType :=
        if handle = 0 then
          none
        else
          some (.Named none ["System"] "Object" [] [0])
      interfaces := []
      members := []
      skippedMembers := [] }
  typesByNamespace := fun space name =>
    let found : Option (Fin 3) :=
      if space ≠ ["System"] then none
      else if name = "Object" then some 0
      else if name = "Int32" then some 1
      else if name = "String" then some 2
      else none
    ⟨found.toList, fun arity => if arity = 0 then found else none⟩
  namespacesWithDroppedTypes := fun _ => false

theorem coreTypes_sealedApart :
    coreTypes.SealedApart := by
  -- every edge leads to `System.Object`, which is not sealed
  have hEdges : ((List.finRange 3).all fun a =>
      (coreTypes.baseEdges a).all (· == (0 : Fin 3))) = true := by
    decide
  intro canon canon' sub super _ hSuper hMem
  rcases hSuper with ⟨hSealed, path, hPath, hLookup⟩
  rw [AssemblyEnv.mem_superTypes_iff] at hMem
  rcases hMem with ⟨hProper, hReach⟩
  have hObject : super = (0 : Fin 3) := by
    cases hReach with
    | refl => exact absurd rfl hProper
    | tail _ hEdge =>
        rename_i a _
        have hAll := List.all_eq_true.1 hEdges a (List.mem_finRange a)
        exact beq_iff_eq.1 (List.all_eq_true.1 hAll super hEdge)
  rw [hObject] at hLookup
  rcases Option.bind_eq_some_iff.1 hLookup with ⟨name, hName, hType⟩
  have hSystem : path.dropLast = ["System"] ∧ name = "Object" := by
    unfold AssemblyEnv.lookupType coreTypes at hType
    dsimp only at hType
    rw [if_pos rfl] at hType
    split_ifs at hType with hSpace hObject hInt hString
    · exact ⟨not_not.1 hSpace, hObject⟩
    · cases hType
    · cases hType
  rw [← List.dropLast_append_getLast? name hName, hSystem.1, hSystem.2]
    at hPath
  rw [← hPath] at hSealed
  exact absurd hSealed (by decide)

/- An integer goes to the overload of integers, not to that of strings. -/
theorem overload_approximations_ordered_core :
    let method (ty : TypeRef) : MethodLike :=
      { name := "Append"
        access := .Public
        signature := ⟨[⟨ty, false, false, .None, false⟩], .Primitive .Void⟩
        isStatic := false
        isConstructor := false
        genericParameters := 0 }
    let level : coreTypes.Handle := (0 : Fin 3)
    coreTypes.resolveOverload
        [⟨level, 0, method (.Primitive .String)⟩,
          ⟨level, 1, method (.Primitive .I4)⟩]
        [.Named ["System", "Int32"] []] =
      some ⟨level, 1, method (.Primitive .I4)⟩ := by
  intro method level
  apply ((overload_approximations_ordered coreTypes
    coreTypes_sealedApart).2.1 _ _ _).2
  refine ⟨[⟨level, 0, method (.Primitive .String)⟩], [], rfl, ?_, ?_⟩
  · decide
  · intro c hMem
    rw [List.append_nil, List.mem_singleton] at hMem
    rw [hMem]
    decide

end Overload

end Borzoi
