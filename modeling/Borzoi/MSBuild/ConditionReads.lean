import Borzoi.MSBuild.Condition

/-
  What an evaluation relies on.

  A condition is evaluated over two property maps, where the second one
  defines further names.

  Main declarations:
    * `Extends`
    * `evalBool_keeps`
    * `evaluate_reads_reported`
-/

namespace Borzoi

namespace MSBuild

/-
  The second map has what the first one has, and defines the further
  names.  A substitution changes only where it reports one of them, or an
  expression that it does not evaluate.
-/
structure Extends
    (props props' : Properties)
    (further : List Char → Prop) :
    Prop where
  substitute : ∀ fs raw,
    (∀ name, .Undefined name ∈ (props.substitute fs raw).2 →
      ¬ further name) →
    (∀ expression, .Unsupported expression ∉
      (props.substitute fs raw).2) →
    props'.substitute fs raw = props.substitute fs raw
  get_some : ∀ name value, props.get name = some value →
    props'.get name = some value
  get_none : ∀ name, props.get name = none → ¬ further name →
    props'.get name = none
  references : props'.propertyReferences = props.propertyReferences
  versions : props'.compareMsbuildVersions = props.compareMsbuildVersions
  relational : props'.compareRelationalValues =
    props.compareRelationalValues
  numbers : props'.compareNumbers = props.compareNumbers

/- A result without further names is the second one too. -/
def Keeps
    {α : Type}
    (further : List Char → Prop)
    (result result' : EvalResult α) :
    Prop :=
  ∀ value undefined, result = some (value, undefined) →
    (∀ name ∈ undefined, ¬ further name) →
    result' = some (value, undefined)

section Keeping

variable {α β : Type} {props props' : Properties} {further : List Char → Prop}

theorem Keeps.refl
    (result : EvalResult α) :
    Keeps further result result :=
  fun _ _ hSome _ => hSome

/- Two results, of which a partial function is taken. -/
theorem Keeps.both
    {left left' right right' : EvalResult α}
    {a : α}
    {before names : List (List Char)}
    (hLeft : Keeps further left left')
    (hRight : Keeps further right right')
    {b : α}
    (hFirst : left = some (a, before))
    (hSecond : right = some (b, names))
    (hNone : ∀ name ∈ before ++ names, ¬ further name) :
    left' = some (a, before) ∧ right' = some (b, names) := by
  constructor
  · apply hLeft a before hFirst
    exact fun name hMem => hNone name (List.mem_append_left _ hMem)
  · apply hRight b names hSecond
    exact fun name hMem => hNone name (List.mem_append_right _ hMem)

section

variable (hExtends : Extends props props' further)

include hExtends

theorem expandForCondition_keeps
    (fs : Bool)
    (raw : List Char) :
    Keeps further (expandForCondition props fs raw)
      (expandForCondition props' fs raw) := by
  intro value names hSome hNone
  have hSame : props'.substitute fs raw = props.substitute fs raw := by
    unfold expandForCondition at hSome
    dsimp only at hSome
    split at hSome
    · cases hSome
    · next hEvaluated =>
        split at hSome
        · cases hSome
        · cases hSome
          apply hExtends.substitute
          · intro name hMem
            exact hNone name (List.mem_filterMap.2 ⟨_, hMem, rfl⟩)
          · intro expression hMem
            exact hEvaluated (List.any_eq_true.2 ⟨_, hMem, rfl⟩)
  unfold expandForCondition at hSome ⊢
  rw [hSame]
  exact hSome

theorem expandOperand_keeps
    (fs : Bool)
    (raw : List Char) :
    Keeps further (expandOperand props fs raw)
      (expandOperand props' fs raw) := by
  have hLeaf := expandForCondition_keeps hExtends fs raw
  unfold Keeps expandOperand at *
  grind [Option.map_eq_some_iff]

theorem expandSystemVersionParseArg_keeps
    (fs : Bool)
    (raw : List Char) :
    Keeps further (expandSystemVersionParseArg props fs raw)
      (expandSystemVersionParseArg props' fs raw) := by
  have hLeaf := expandOperand_keeps hExtends fs (unquoted (NuGet.trim raw))
  have hSome := hExtends.get_some
  have hNone := hExtends.get_none
  unfold Keeps expandSystemVersionParseArg at *
  grind [Option.map_eq_some_iff]

theorem expandScalarForCondition_keeps
    (fs : Bool)
    (scalar : ScalarExpr) :
    Keeps further (expandScalarForCondition props fs scalar)
      (expandScalarForCondition props' fs scalar) := by
  cases scalar with
  | String raw => exact expandOperand_keeps hExtends fs raw
  | Bare raw => exact Keeps.refl _
  | Property raw => exact expandOperand_keeps hExtends fs raw
  | SystemVersionPart arg part =>
      have hLeaf := expandSystemVersionParseArg_keeps hExtends fs arg
      unfold Keeps expandScalarForCondition at *
      grind [Option.map_eq_some_iff]

theorem evalMsbuildVersionFunction_keeps
    (fs : Bool)
    (inner : List Char) :
    Keeps further (evalMsbuildVersionFunction props fs inner)
      (evalMsbuildVersionFunction props' fs inner) := by
  unfold evalMsbuildVersionFunction
  split
  · exact Keeps.refl _
  · next function rawArgs _ =>
      split
      · next lhs rhs _ =>
          intro value names hSome hNone
          have hLeft := expandOperand_keeps hExtends fs
            (unquoted (NuGet.trim lhs))
          have hRight := expandOperand_keeps hExtends fs
            (unquoted (NuGet.trim rhs))
          split at hSome
          · next hFirst hSecond =>
              rcases Option.map_eq_some_iff.1 hSome with ⟨_, -, hSame⟩
              cases hSame
              rcases hLeft.both hRight hFirst hSecond hNone with
                ⟨hFirst', hSecond'⟩
              unfold expandFunctionArgForCondition
              rw [hFirst', hSecond', hExtends.versions]
              exact hSome
          · cases hSome
      · exact Keeps.refl _

/-
  Every name that is read undefined is reported, whichever operands are
  evaluated.
-/
theorem evalBool_keeps
    (files : Option (List Char → Bool))
    (expr : BoolExpr) :
    Keeps further (evalBool props files expr)
      (evalBool props' files expr) := by
  induction expr with
  | True => exact Keeps.refl _
  | False => exact Keeps.refl _
  | Not inner ih =>
      unfold Keeps at *
      rw [evalBool, evalBool]
      grind [Option.map_eq_some_iff]
  | And lhs rhs ihLeft ihRight | Or lhs rhs ihLeft ihRight =>
      intro value names hSome hNone
      rw [evalBool] at hSome ⊢
      split at hSome
      · cases hSome
      · next hFirst =>
          cases hSome
          rw [ihLeft _ _ hFirst hNone]
      · next hFirst =>
          rcases Option.map_eq_some_iff.1 hSome with ⟨r, hSecond, hSame⟩
          cases hSame
          rcases ihLeft.both ihRight hFirst hSecond hNone with
            ⟨hFirst', hSecond'⟩
          rw [hFirst', hSecond']
          rfl
  | Exists raw =>
      have hLeaf := expandForCondition_keeps hExtends true raw
      unfold Keeps evalBool at *
      grind [Option.map_eq_some_iff]
  | HasTrailingSlash raw =>
      have hLeaf := expandForCondition_keeps hExtends files.isSome raw
      unfold Keeps at *
      rw [evalBool, evalBool]
      grind
  | MsbuildVersionFunction inner =>
      exact evalMsbuildVersionFunction_keeps hExtends files.isSome inner
  | CoerceBool scalar =>
      have hLeaf := expandScalarForCondition_keeps hExtends files.isSome scalar
      unfold Keeps at *
      rw [evalBool, evalBool]
      grind [Option.map_eq_some_iff]
  | Compare op lhs rhs =>
      have hLeft := expandScalarForCondition_keeps hExtends files.isSome lhs
      have hRight := expandScalarForCondition_keeps hExtends files.isSome rhs
      have hEquality : compareEqualityValues props' =
          compareEqualityValues props := by
        funext lhs rhs
        unfold compareEqualityValues
        rw [hExtends.numbers]
      intro value names hSome hNone
      unfold evalBool at hSome ⊢
      split at hSome
      · next _ _ _ before _ after hFirst hSecond =>
          have hNames : names = before ++ after := by
            split at hSome
            · rcases Option.map_eq_some_iff.1 hSome with ⟨_, -, hSame⟩
              cases hSame
              rfl
            · rcases Option.map_eq_some_iff.1 hSome with ⟨_, -, hSame⟩
              cases hSame
              rfl
          rw [hNames] at hNone
          rcases hLeft.both hRight hFirst hSecond hNone with
            ⟨hFirst', hSecond'⟩
          rw [hFirst', hSecond', hEquality, hExtends.relational]
          exact hSome
      · cases hSome

theorem refsOutsideEmptyComparison_eq
    (expr : BoolExpr) :
    refsOutsideEmptyComparison props' expr =
      refsOutsideEmptyComparison props expr := by
  have hScalar : scalarRefsOutsideEmptyComparison props' =
      scalarRefsOutsideEmptyComparison props := by
    funext scalar
    unfold scalarRefsOutsideEmptyComparison
    rw [hExtends.references]
  induction expr with
  | Not inner ih => exact ih
  | And lhs rhs ihLeft ihRight | Or lhs rhs ihLeft ihRight =>
      exact congrArg₂ (· ++ ·) ihLeft ihRight
  | _ =>
      unfold refsOutsideEmptyComparison
      simp only [hScalar, hExtends.references]

end

end Keeping

/-
  A decided condition is decided alike, with the same reports, as long as
  none of the names that it reports undefined is defined.
-/
theorem evaluate_reads_reported
    {props props' : Properties}
    {further : List Char → Prop}
    (hExtends : Extends props props' further)
    (files : Option (List Char → Bool))
    (source : List Char)
    (hDecided : (evaluateInner props files source).outcome ≠ .Unsupported)
    (hNone : ∀ name ∈ (evaluateInner props files source).undefinedProperties,
      ¬ further name) :
    evaluateInner props' files source = evaluateInner props files source := by
  unfold evaluateInner at *
  split
  · rfl
  · next hBlank =>
      rw [if_neg hBlank] at hDecided hNone
      split
      · rfl
      · next hPlain =>
          rw [if_neg hPlain] at hDecided hNone
          cases hTokens : tokenise source with
          | none => rfl
          | some tokens =>
              rw [hTokens] at hDecided hNone
              dsimp only at hDecided hNone ⊢
              split
              · rfl
              · rfl
              · next expr hParse =>
                  rw [hParse] at hDecided hNone
                  dsimp only at hDecided hNone
                  cases hEval : evalBool props files expr with
                  | none =>
                      rw [hEval] at hDecided
                      exact absurd rfl hDecided
                  | some r =>
                      rw [hEval] at hNone
                      rw [evalBool_keeps hExtends files expr r.1 r.2 hEval
                        hNone, refsOutsideEmptyComparison_eq hExtends]

/- Maps that define `X`, and `Y` to what is given, for operands alone. -/
def definesX
    (y : Option (List Char)) :
    Properties where
  substitute := fun _ raw =>
    if raw = "$(X)".toList then
      (⟨['a']⟩, [])
    else if raw = "$(Y)".toList then
      (⟨y.getD []⟩, if y = none then [.Undefined ['Y']] else [])
    else
      (⟨raw⟩, [])
  get := fun _ => none
  propertyReferences := fun raw =>
    [['X'], ['Y']].filter fun name =>
      mentions ('$' :: '(' :: name ++ [')']) raw
  compareMsbuildVersions := fun _ _ => none
  compareRelationalValues := fun _ _ => none
  compareNumbers := fun _ _ => none

theorem definesX_extends
    (y : List Char) :
    Extends (definesX none) (definesX (some y)) (· = ['Y']) where
  substitute := by
    intro fs raw hNone _
    dsimp only [definesX] at hNone ⊢
    by_cases hX : raw = "$(X)".toList
    · rw [if_pos hX, if_pos hX]
    · rw [if_neg hX, if_neg hX]
      rw [if_neg hX] at hNone
      by_cases hY : raw = "$(Y)".toList
      · rw [if_pos hY] at hNone
        exact absurd rfl (hNone ['Y'] List.mem_cons_self)
      · rw [if_neg hY, if_neg hY]
  get_some := by
    intro name value hSome
    cases hSome
  get_none := fun _ _ _ => rfl
  references := rfl
  versions := rfl
  relational := rfl
  numbers := rfl

/- The second operand is not evaluated, and so not relied on. -/
theorem evaluate_reads_reported_first :
    evaluateInner (definesX (some ['b'])) none
        "'$(X)' == 'a' Or '$(Y)' == ''".toList =
      evaluateInner (definesX none) none
        "'$(X)' == 'a' Or '$(Y)' == ''".toList :=
  evaluate_reads_reported (definesX_extends ['b']) none _ (by decide +kernel)
    (by decide +kernel)

end MSBuild

end Borzoi
