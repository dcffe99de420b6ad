import Borzoi.LexFilter.State

/-
  The undentation limit and its skip links.

  `undentationArm` is one iteration of the stepwise walk over the
  offside stack.  `undentationLimit` adds the jump over runs of
  pure-skip contexts through the skip links, and
  `undentationLimitReference` is the walk without the jump.
-/

namespace Borzoi

namespace LexFilter

/- What one iteration decides. -/
inductive Walk
  | Continue (strict : Bool) (stack : List Context)
  | Limit (limit : PositionWithColumn)
  | Unreachable

/- The limit `extra` columns right of a position. -/
def limitAt
    (pos : Pos)
    (extra : Int) :
    Walk :=
  .Limit ⟨pos, pos.col + extra⟩

/- The leftmost of two positions. -/
def minCol
    (a b : Pos) :
    Pos :=
  if a.col ≤ b.col then a else b

/- An ordered arm: `none` falls through to the next one. -/
abbrev UndentationArm :=
  Bool → Context → Context → List Context → Option Walk

def vanillaArm : UndentationArm := fun strict _ head rest =>
  match head with
  | .Vanilla _ _ => some (.Continue strict rest)
  | _ => none

def relaxedBlockArm : UndentationArm := fun strict _ head rest =>
  match strict, head with
  | false, .SeqBlock _ _ _ => some (.Continue false rest)
  | false, .Paren _ _ => some (.Continue false rest)
  | _, _ => none

def exprParenArm : UndentationArm := fun _ _ head rest =>
  match head with
  | .Paren _ opener =>
      if opener.isTokenLExprParen then
        some (.Continue false rest)
      else
        none
  | _ => none

def blockInExprParenArm : UndentationArm := fun _ _ head rest =>
  match head, rest with
  | .SeqBlock _ _ _, .Paren _ opener :: rest =>
      if opener.isTokenLExprParen then
        some (.Continue false rest)
      else
        none
  | _, _ => none

def typeBodyParenArm : UndentationArm := fun _ _ head rest =>
  match head, rest with
  | .Paren _ opener, .SeqBlock _ _ _ :: .TypeDefns pos _ :: _ =>
      match opener with
      | .Class | .Struct | .Interface => some (limitAt pos 1)
      | _ => none
  | _, _ => none

def elseBlockArm : UndentationArm := fun _ newCtxt head rest =>
  match newCtxt, head, rest with
  | .SeqBlock _ _ _, .Else _, .If pos :: _ => some (limitAt pos 0)
  | _, _, _ => none

def declDoBlockArm : UndentationArm := fun _ newCtxt head rest =>
  match newCtxt, head, rest with
  | .SeqBlock true _ _, .Do pos,
      .SeqBlock _ _ _ :: .TypeDefns _ _ :: _ => some (limitAt pos 1)
  | .SeqBlock true _ _, .Do pos,
      .SeqBlock _ _ _ :: .ModuleBody _ _ :: _ => some (limitAt pos 1)
  | _, _, _ => none

def augmentBlockArm : UndentationArm := fun _ newCtxt head rest =>
  match newCtxt, head, rest with
  | .SeqBlock true _ _, .WithAsAugment _, .TypeDefns pos _ :: _ =>
      some (limitAt pos 1)
  | _, _, _ => none

def augmentArm : UndentationArm := fun _ newCtxt head _ =>
  match newCtxt, head with
  | .WithAsAugment _, .MemberHead pos => some (limitAt pos 0)
  | .WithAsAugment _, .TypeDefns pos _ => some (limitAt pos 0)
  | .WithAsAugment _, .Exception pos => some (limitAt pos 0)
  | .WithAsAugment _, .InterfaceHead pos => some (limitAt pos 0)
  | _, _ => none

def functionClausesArm : UndentationArm := fun _ newCtxt head rest =>
  match newCtxt, head, rest with
  | .MatchClauses _ _, .Function _,
      .SeqBlock _ _ _ :: .LetDecl _ pos :: _ => some (limitAt pos 0)
  | _, _, _ => none

def relaxArm : UndentationArm := fun _ _ head rest =>
  match head with
  | .Fun _ _ | .Function _ | .Then _ | .Else _ | .Do _
  | .WithAsAugment _ => some (.Continue false rest)
  | _ => none

def matchInParenArm : UndentationArm := fun _ _ head rest =>
  match head, rest with
  | .Match matchPos, .SeqBlock _ _ _ :: .Paren parenPos opener :: _ =>
      match opener with
      | .Paren | .Begin => some (limitAt (minCol matchPos parenPos) 0)
      | _ => none
  | _, _ => none

def clausesInParenArm : UndentationArm := fun _ _ head rest =>
  match head, rest with
  | .MatchClauses _ clausesPos,
      .Match _ :: .SeqBlock _ _ _ :: .Paren parenPos opener :: _ =>
      match opener with
      | .Paren | .Begin => some (limitAt (minCol clausesPos parenPos) 0)
      | _ => none
  | _, _ => none

def clausesArm : UndentationArm := fun _ _ head rest =>
  match head, rest with
  | .MatchClauses _ _, .Try pos :: _ => some (limitAt pos 0)
  | .MatchClauses _ _, .Match pos :: _ => some (limitAt pos 0)
  | _, _ => none

def ifBranchArm : UndentationArm := fun _ newCtxt head _ =>
  match newCtxt, head with
  | .If _, .If pos => some (limitAt pos 0)
  | .Else _, .If pos => some (limitAt pos 0)
  | .Then _, .If pos => some (limitAt pos 0)
  | _, _ => none

def propertyWithArm : UndentationArm := fun _ _ head rest =>
  match head, rest with
  | .WithAsLet _, .MemberHead pos :: _ => some (limitAt pos 1)
  | _, _ => none

/- The last match, on the head alone. -/
def headLimit
    (head : Context) :
    Walk :=
  match head with
  | .If pos | .LetDecl _ pos | .WithAsLet pos
  | .NamespaceHead pos _ | .ModuleHead pos _ _ _
  | .ModuleBody pos false | .MemberHead pos | .MemberBody pos
  | .Exception pos | .InterfaceHead pos => limitAt pos 1
  | .Paren pos _ | .For pos _ | .When pos | .While pos _
  | .Match pos | .MatchClauses _ pos | .SeqBlock _ pos _
  | .Try pos | .NamespaceBody pos | .ModuleBody pos true
  | .TypeDefns pos _ => limitAt pos 0
  | .Vanilla _ _ | .Fun _ _ | .Function _ | .Then _ | .Else _
  | .Do _ | .WithAsAugment _ => .Unreachable

/- The arms in source order. -/
def undentationArms : List UndentationArm :=
  [vanillaArm, relaxedBlockArm, exprParenArm, blockInExprParenArm,
    typeBodyParenArm, elseBlockArm, declDoBlockArm, augmentBlockArm,
    augmentArm, functionClausesArm, relaxArm, matchInParenArm,
    clausesInParenArm, clausesArm, ifBranchArm, propertyWithArm]

/- One iteration: the first arm that applies, else the head's limit. -/
def undentationArm
    (strict : Bool)
    (newCtxt head : Context)
    (rest : List Context) :
    Walk :=
  (undentationArms.findSome? fun arm =>
    arm strict newCtxt head rest).getD (headLimit head)

/- Contexts a relaxed walk always steps over. -/
def isPureSkip
    (ctxt : Context) :
    Bool :=
  match ctxt with
  | .Vanilla _ _ | .SeqBlock _ _ _ | .Fun _ _ | .Then _
  | .Paren _ _ => true
  | _ => false

/- The walk over an empty stack: no limit. -/
def noLimit
    (newCtxt : Context) :
    PositionWithColumn :=
  ⟨newCtxt.startPos, -1⟩

/- The jump-free walk, on at most `fuel` contexts. -/
def referenceWalk
    (newCtxt : Context)
    (fuel : Nat)
    (strict : Bool)
    (stack : List Context) :
    Except Panic PositionWithColumn :=
  match fuel, stack with
  | _, [] => .ok (noLimit newCtxt)
  | 0, _ :: _ => .error .UnreachableArm
  | fuel + 1, head :: rest =>
      match undentationArm strict newCtxt head rest with
      | .Continue strict' stack' =>
          referenceWalk newCtxt fuel strict' stack'
      | .Limit limit => .ok limit
      | .Unreachable => .error .UnreachableArm

/- `undentation_limit_reference`. -/
def undentationLimitReference
    (strict : Bool)
    (newCtxt : Context)
    (stack : List Context) :
    Except Panic PositionWithColumn :=
  referenceWalk newCtxt stack.length strict stack

/- The walk with the jump, on at most `fuel` contexts. -/
def cachedWalk
    (newCtxt : Context)
    (skip : List (Option Nat))
    (fuel : Nat)
    (strict : Bool)
    (stack : List Context) :
    Except Panic PositionWithColumn :=
  match fuel, stack with
  | _, [] => .ok (noLimit newCtxt)
  | 0, _ :: _ => .error .UnreachableArm
  | fuel + 1, head :: rest =>
      if !strict && isPureSkip head then
        match skip.reverse[rest.length]? with
        | none => .error .IndexOutOfBounds
        | some none => .ok (noLimit newCtxt)
        | some (some target) =>
            if target ≤ rest.length then
              cachedWalk newCtxt skip fuel strict
                ((head :: rest).drop (rest.length - target))
            else
              .error .IndexOutOfBounds
      else
        match undentationArm strict newCtxt head rest with
        | .Continue strict' stack' =>
            cachedWalk newCtxt skip fuel strict' stack'
        | .Limit limit => .ok limit
        | .Unreachable => .error .UnreachableArm

/- `undentation_limit`. -/
def undentationLimit
    (strict : Bool)
    (newCtxt : Context)
    (stack : List Context)
    (skip : List (Option Nat)) :
    Except Panic PositionWithColumn :=
  cachedWalk newCtxt skip stack.length strict stack

/-
  The link of a context pushed at index `i`, from the links of the
  contexts below it.
-/
def skipEntry
    (ctxt : Context)
    (i : Nat)
    (skip : List (Option Nat)) :
    Except Panic (Option Nat) :=
  if isPureSkip ctxt then
    if i = 0 then
      .ok none
    else
      match skip.reverse[i - 1]? with
      | some entry => .ok entry
      | none => .error .IndexOutOfBounds
  else
    .ok (some i)

/- The links recomputed from a stack. -/
def buildSkip
    (stack : List Context) :
    List (Option Nat) :=
  match stack with
  | [] => []
  | ctxt :: rest =>
      let entry :=
        if isPureSkip ctxt then
          (buildSkip rest).headD none
        else
          some rest.length
      entry :: buildSkip rest

/- What an arm decides: to go on below, or a limit at a context. -/
def Walk.Within
    (head : Context)
    (rest : List Context) :
    Walk → Prop
  | .Continue _ stack => stack <:+ rest
  | .Limit limit => ∃ ctxt ∈ head :: rest, limit.pos = ctxt.startPos
  | .Unreachable => False

variable {strict : Bool} {head newCtxt : Context} {rest stack : List Context}

theorem undentationArms_within
    {arm : UndentationArm}
    {walk : Walk}
    (hArm : arm ∈ undentationArms)
    (hStep : arm strict newCtxt head rest = some walk) :
    walk.Within head rest := by
  simp only [undentationArms, List.mem_cons, List.not_mem_nil,
    or_false] at hArm
  rcases hArm with rfl | rfl | rfl | rfl | rfl | rfl | rfl | rfl |
    rfl | rfl | rfl | rfl | rfl | rfl | rfl | rfl
  all_goals
    revert hStep
    simp only [vanillaArm, relaxedBlockArm, exprParenArm,
      blockInExprParenArm, typeBodyParenArm, elseBlockArm,
      declDoBlockArm, augmentBlockArm, augmentArm,
      functionClausesArm, relaxArm, matchInParenArm,
      clausesInParenArm, clausesArm, ifBranchArm, propertyWithArm,
      limitAt, minCol]
    repeat' split
    all_goals
      intro hStep
      simp only [Option.some.injEq, reduceCtorEq] at hStep
  all_goals
    subst hStep
    simp [Walk.Within, Context.startPos, List.suffix_cons]

/- A walk that continues does so on a suffix of the rest. -/
theorem undentationArm_continue
    {strict strict' : Bool}
    (hStep : undentationArm strict newCtxt head rest =
      .Continue strict' stack) :
    stack <:+ rest := by
  unfold undentationArm at hStep
  cases hFind : undentationArms.findSome? fun arm =>
      arm strict newCtxt head rest with
  | none =>
      rw [hFind] at hStep
      cases head with
      | ModuleBody pos wholeFile =>
          cases wholeFile <;> cases hStep
      | _ =>
          cases hStep
  | some walk =>
      rw [hFind] at hStep
      rcases List.exists_of_findSome?_eq_some hFind with
        ⟨arm, hArm, hResult⟩
      rw [Option.getD_some] at hStep
      rw [hStep] at hResult
      exact undentationArms_within hArm hResult

/- A limit takes the place of a context. -/
theorem undentationArm_limit
    {limit : PositionWithColumn}
    (hStep : undentationArm strict newCtxt head rest = .Limit limit) :
    ∃ ctxt ∈ head :: rest, limit.pos = ctxt.startPos := by
  unfold undentationArm at hStep
  cases hFind : undentationArms.findSome? fun arm =>
      arm strict newCtxt head rest with
  | none =>
      rw [hFind] at hStep
      refine ⟨head, List.mem_cons_self, ?_⟩
      cases head with
      | ModuleBody pos wholeFile =>
          cases wholeFile <;> cases hStep <;> rfl
      | _ =>
          cases hStep <;> rfl
  | some walk =>
      rw [hFind] at hStep
      rcases List.exists_of_findSome?_eq_some hFind with
        ⟨arm, hArm, hResult⟩
      rw [Option.getD_some] at hStep
      rw [hStep] at hResult
      exact undentationArms_within hArm hResult

/- The walk never reaches its unreachable arm. -/
theorem undentationArm_ne_unreachable
    (strict : Bool)
    (newCtxt head : Context)
    (rest : List Context) :
    undentationArm strict newCtxt head rest ≠ .Unreachable := by
  intro hStep
  unfold undentationArm at hStep
  cases hFind : undentationArms.findSome? fun arm =>
      arm strict newCtxt head rest with
  | none =>
      rw [hFind] at hStep
      -- the heads without a limit are caught by two of the arms
      have hNone := List.findSome?_eq_none_iff.mp hFind
      have hVanilla := hNone vanillaArm (by simp [undentationArms])
      have hRelax := hNone relaxArm (by simp [undentationArms])
      cases head with
      | ModuleBody pos wholeFile =>
          cases wholeFile <;> cases hStep
      | _ =>
          first
            | (cases hStep; done)
            | (cases hVanilla; done)
            | cases hRelax
  | some walk =>
      rw [hFind] at hStep
      rcases List.exists_of_findSome?_eq_some hFind with
        ⟨arm, hArm, hResult⟩
      rw [Option.getD_some] at hStep
      rw [hStep] at hResult
      exact undentationArms_within hArm hResult

/- A relaxed walk steps over every pure-skip head. -/
theorem undentationArm_pureSkip
    (hPure : isPureSkip head = true) :
    undentationArm false newCtxt head rest =
      .Continue false rest := by
  cases head with
  | Vanilla | SeqBlock | Paren | Fun | Then =>
      simp [undentationArm, undentationArms, List.findSome?_cons,
        vanillaArm, relaxedBlockArm, exprParenArm, blockInExprParenArm,
        typeBodyParenArm, elseBlockArm, declDoBlockArm,
        augmentBlockArm, augmentArm, functionClausesArm, relaxArm]
  | _ =>
      cases hPure

------------------------------------------------------------
-- The Jump-Free Walk
------------------------------------------------------------

/- More fuel than contexts changes nothing. -/
theorem referenceWalk_fuel
    (newCtxt : Context)
    {n m : Nat}
    (strict : Bool)
    (stack : List Context)
    (hn : stack.length ≤ n)
    (hm : stack.length ≤ m) :
    referenceWalk newCtxt n strict stack =
      referenceWalk newCtxt m strict stack := by
  induction n generalizing m strict stack with
  | zero =>
      have hNil : stack = [] := by
        simpa using hn
      subst hNil
      simp [referenceWalk]
  | succ n ih =>
      cases stack with
      | nil =>
          simp [referenceWalk]
      | cons head rest =>
          simp only [List.length_cons] at hn hm
          obtain ⟨m, rfl⟩ : ∃ m', m = m' + 1 :=
            ⟨m - 1, by omega⟩
          simp only [referenceWalk]
          split
          · next strict' stack' hStep =>
              have hLe :=
                (undentationArm_continue hStep).length_le
              exact ih strict' stack' (by omega) (by omega)
          · rfl
          · rfl

/- One iteration of the jump-free walk. -/
theorem undentationLimitReference_cons
    (strict : Bool)
    (newCtxt head : Context)
    (rest : List Context) :
    undentationLimitReference strict newCtxt (head :: rest) =
      match undentationArm strict newCtxt head rest with
      | .Continue strict' stack' =>
          undentationLimitReference strict' newCtxt stack'
      | .Limit limit => .ok limit
      | .Unreachable => .error .UnreachableArm := by
  unfold undentationLimitReference
  simp only [List.length_cons, referenceWalk]
  split
  · next strict' stack' hStep =>
      have hLe := (undentationArm_continue hStep).length_le
      exact referenceWalk_fuel newCtxt strict' stack' hLe (Nat.le_refl _)
  · rfl
  · rfl

/-
  The jump-free walk always finds a limit: the place of a context, or
  none at all.
-/
theorem undentationLimitReference_ok
    (strict : Bool)
    (newCtxt : Context)
    (stack : List Context) :
    ∃ limit, undentationLimitReference strict newCtxt stack =
        .ok limit ∧
      (limit = noLimit newCtxt ∨
        ∃ ctxt ∈ stack, limit.pos = ctxt.startPos) := by
  induction hLen : stack.length using Nat.strongRecOn
    generalizing strict stack with
  | _ n ih =>
      cases stack with
      | nil =>
          exact ⟨noLimit newCtxt, rfl, .inl rfl⟩
      | cons head rest =>
          rw [undentationLimitReference_cons]
          split
          · next strict' stack' hStep =>
              have hSuffix := undentationArm_continue hStep
              have hLe := hSuffix.length_le
              simp only [List.length_cons] at hLen
              rcases ih stack'.length (by omega) strict' stack' rfl with
                ⟨limit, hLimit, hPlace⟩
              refine ⟨limit, hLimit, hPlace.imp_right ?_⟩
              rintro ⟨ctxt, hMem, hPos⟩
              exact ⟨ctxt, List.mem_cons_of_mem _
                (hSuffix.subset hMem), hPos⟩
          · next limit hStep =>
              exact ⟨limit, rfl, .inr (undentationArm_limit hStep)⟩
          · next hStep =>
              exact absurd hStep
                (undentationArm_ne_unreachable _ _ _ _)

@[simp] theorem buildSkip_length
    (stack : List Context) :
    (buildSkip stack).length = stack.length := by
  induction stack with
  | nil =>
      rfl
  | cons ctxt rest ih =>
      simp [buildSkip, ih]

/- The link at an index depends on the contexts up to it only. -/
theorem buildSkip_suffix
    (hSuffix : (head :: rest) <:+ stack) :
    (buildSkip stack).reverse[rest.length]? =
      (buildSkip (head :: rest)).head? := by
  induction stack with
  | nil =>
      simp at hSuffix
  | cons ctxt below ih =>
      rcases List.suffix_cons_iff.mp hSuffix with hEq | hBelow
      · rw [← hEq]
        simp [buildSkip]
      · have hLen : rest.length < below.length := by
          have hLe := hBelow.length_le
          rw [List.length_cons] at hLe
          exact hLe
        rw [← ih hBelow]
        simp only [buildSkip, List.reverse_cons]
        rw [List.getElem?_append_left (by simpa using hLen)]

/- Without a target, a relaxed walk finds no limit. -/
theorem reference_of_no_target
    (hSkip : (buildSkip (head :: rest)).head? = some none) :
    undentationLimitReference false newCtxt (head :: rest) =
      .ok (noLimit newCtxt) := by
  induction rest generalizing head with
  | nil =>
      by_cases hPure : isPureSkip head = true
      · rw [undentationLimitReference_cons,
          undentationArm_pureSkip hPure]
        rfl
      · simp [buildSkip, hPure] at hSkip
  | cons next rest ih =>
      by_cases hPure : isPureSkip head = true
      · rw [undentationLimitReference_cons,
          undentationArm_pureSkip hPure]
        apply ih
        rw [buildSkip] at hSkip
        simpa [hPure, buildSkip] using hSkip
      · simp [buildSkip, hPure] at hSkip

/-
  With a target, the relaxed walk goes on from it.  The target lies
  strictly below a pure-skip head.
-/
theorem reference_of_target
    (newCtxt : Context)
    {target : Nat}
    (hSkip : (buildSkip (head :: rest)).head? =
      some (some target)) :
    target ≤ rest.length ∧
      (isPureSkip head = true → target < rest.length) ∧
      undentationLimitReference false newCtxt (head :: rest) =
        undentationLimitReference false newCtxt
          ((head :: rest).drop (rest.length - target)) := by
  induction rest generalizing head with
  | nil =>
      by_cases hPure : isPureSkip head = true
      · simp [buildSkip, hPure] at hSkip
      · have hTarget : target = 0 := by
          simpa [buildSkip, hPure] using hSkip.symm
        subst hTarget
        simp [hPure]
  | cons next rest ih =>
      by_cases hPure : isPureSkip head = true
      · have hNext : (buildSkip (next :: rest)).head? =
            some (some target) := by
          rw [buildSkip] at hSkip
          simpa [hPure, buildSkip] using hSkip
        rcases ih hNext with ⟨hLe, -, hWalk⟩
        simp only [List.length_cons]
        refine ⟨by omega, fun _ => by omega, ?_⟩
        rw [undentationLimitReference_cons,
          undentationArm_pureSkip hPure]
        have hDrop :
            rest.length + 1 - target = rest.length - target + 1 := by
          omega
        simp only [hDrop, List.drop_succ_cons]
        exact hWalk
      · have hTarget : target = rest.length + 1 := by
          simpa [buildSkip, hPure] using hSkip.symm
        subst hTarget
        simp [hPure]

/- On any suffix of the stack the two walks agree. -/
theorem cachedWalk_eq_reference
    {full stack : List Context}
    {fuel : Nat}
    (strict : Bool)
    (hSuffix : stack <:+ full)
    (hFuel : stack.length ≤ fuel) :
    cachedWalk newCtxt (buildSkip full) fuel strict stack =
      undentationLimitReference strict newCtxt stack := by
  induction fuel generalizing strict stack with
  | zero =>
      have hNil : stack = [] := by
        simpa using hFuel
      subst hNil
      simp [cachedWalk, undentationLimitReference, referenceWalk]
  | succ fuel ih =>
      cases stack with
      | nil =>
          simp [cachedWalk, undentationLimitReference, referenceWalk]
      | cons head rest =>
          simp only [List.length_cons] at hFuel
          rw [cachedWalk]
          split
          · next hJump =>
              simp only [Bool.and_eq_true, Bool.not_eq_true'] at hJump
              rcases hJump with ⟨rfl, hPure⟩
              rw [buildSkip_suffix hSuffix]
              cases hSkip : (buildSkip (head :: rest)).head? with
              | none =>
                  simp [buildSkip] at hSkip
              | some entry =>
                  cases entry with
                  | none =>
                      exact (reference_of_no_target hSkip).symm
                  | some target =>
                      rcases reference_of_target newCtxt hSkip with
                        ⟨hLe, hLt, hWalk⟩
                      have hLt := hLt hPure
                      simp only [if_pos hLe]
                      rw [hWalk]
                      apply ih
                      · exact (List.drop_suffix _ _).trans hSuffix
                      · simp only [List.length_drop,
                          List.length_cons]
                        omega
          · rw [undentationLimitReference_cons]
            split
            · next strict' stack' hStep =>
                have hRest := undentationArm_continue hStep
                have hLe := hRest.length_le
                refine ih strict' ?_ (by omega)
                exact (hRest.trans (List.suffix_cons head rest)).trans
                  hSuffix
            · rfl
            · rfl

/- The walk through the skip links is the jump-free walk. -/
theorem undentationLimit_eq_reference
    (strict : Bool)
    (newCtxt : Context)
    (stack : List Context) :
    undentationLimit strict newCtxt stack (buildSkip stack) =
      undentationLimitReference strict newCtxt stack :=
  cachedWalk_eq_reference strict (List.suffix_refl stack) (Nat.le_refl _)

/- Pushing a context extends the recomputed links. -/
theorem skipEntry_buildSkip
    (ctxt : Context)
    (stack : List Context) :
    ∃ entry, skipEntry ctxt stack.length (buildSkip stack) =
        .ok entry ∧
      buildSkip (ctxt :: stack) = entry :: buildSkip stack := by
  by_cases hPure : isPureSkip ctxt = true
  · cases stack with
    | nil =>
        exact ⟨none, by simp [skipEntry, hPure],
          by simp [buildSkip, hPure]⟩
    | cons top below =>
        have hTop := buildSkip_suffix
          (List.suffix_refl (top :: below))
        cases hHead : (buildSkip (top :: below)).head? with
        | none =>
            simp [buildSkip] at hHead
        | some entry =>
            refine ⟨entry, ?_, ?_⟩
            · simp only [skipEntry, hPure, List.length_cons,
                if_true, Nat.add_one_ne_zero, if_false,
                Nat.add_sub_cancel, hTop, hHead]
            · rw [buildSkip]
              simp [hPure, List.headD_eq_head?_getD, hHead]
  · exact ⟨some stack.length, by simp [skipEntry, hPure],
      by simp [buildSkip, hPure]⟩

end LexFilter

end Borzoi
