import Borzoi.MSBuild.ConditionTokens
import Borzoi.MSBuild.Escaping

/-
  Evaluation of a condition.

  The property map, the expressions in operands and the comparison of
  numbers are given by `Properties`.
-/

namespace Borzoi

namespace MSBuild

open NuGet (trim)

inductive ScalarExpr
  | String (raw : List Char)
  | Bare (raw : List Char)
  | SystemVersionPart (arg : List Char) (part : VersionPart)
  | Property (raw : List Char)
  deriving DecidableEq, Repr

inductive BoolExpr
  | True
  | False
  | Not (inner : BoolExpr)
  | And (lhs rhs : BoolExpr)
  | Or (lhs rhs : BoolExpr)
  | Exists (raw : List Char)
  | HasTrailingSlash (raw : List Char)
  | MsbuildVersionFunction (inner : List Char)
  | CoerceBool (scalar : ScalarExpr)
  | Compare (op : CompareOp) (lhs rhs : ScalarExpr)
  deriving DecidableEq, Repr

namespace Token

def isScalarStart :
    Token → Bool
  | String _ => true
  | Bare _ => true
  | SystemVersionPart _ _ => true
  | Property _ => true
  | True => true
  | False => true
  | _ => false

/- `peek_compare_op` on one token. -/
def compareOp :
    Token → Option CompareOp
  | Eq => some .Eq
  | Neq => some .Neq
  | Lt => some .Lt
  | Lte => some .Lte
  | Gt => some .Gt
  | Gte => some .Gte
  | _ => none

end Token

inductive ParseFault
  | Rejected
  | OutOfFuel
  deriving DecidableEq, Repr

/- What a parser returns: a value and the tokens behind it. -/
abbrev ParseResult (α : Type) :=
  Except ParseFault (α × List Token)

/- A parser that goes on with what another left. -/
def andThen
    {α β : Type}
    (result : ParseResult α)
    (next : α → List Token → ParseResult β) :
    ParseResult β :=
  match result with
  | .error fault => .error fault
  | .ok (value, rest) => next value rest

/- `parse_scalar`. -/
def parseScalar :
    List Token → ParseResult ScalarExpr
  | .String s :: rest => .ok (.String s, rest)
  | .Bare s :: rest => .ok (.Bare s, rest)
  | .SystemVersionPart arg part :: rest =>
      .ok (.SystemVersionPart arg part, rest)
  | .Property raw :: rest => .ok (.Property raw, rest)
  | .True :: rest => .ok (.Bare "true".toList, rest)
  | .False :: rest => .ok (.Bare "false".toList, rest)
  | _ => .error .Rejected

/- `parse_single_string_argument`. -/
def parseSingleStringArgument :
    List Token → ParseResult (List Char)
  | .LParen :: .String s :: .RParen :: rest => .ok (s, rest)
  | .LParen :: .Property raw :: .RParen :: rest => .ok (raw, rest)
  | _ => .error .Rejected

/- `parse_primary_bool` on a leading scalar. -/
def parseScalarBool
    (tokens : List Token) :
    ParseResult BoolExpr :=
  andThen (parseScalar tokens) fun lhs rest =>
    match rest.head?.bind Token.compareOp with
    | none => .ok (.CoerceBool lhs, rest)
    | some op =>
        andThen (parseScalar rest.tail) fun rhs rest =>
          .ok (.Compare op lhs rhs, rest)

mutual

/- `parse_or`. -/
def parseOr
    (fuel : Nat)
    (tokens : List Token) :
    ParseResult BoolExpr :=
  match fuel with
  | 0 => .error .OutOfFuel
  | fuel + 1 =>
      andThen (parseAnd fuel tokens) (orLoop fuel)

def orLoop
    (fuel : Nat)
    (left : BoolExpr)
    (tokens : List Token) :
    ParseResult BoolExpr :=
  match fuel with
  | 0 => .error .OutOfFuel
  | fuel + 1 =>
      match tokens with
      | .Or :: rest =>
          andThen (parseAnd fuel rest) fun right rest =>
            orLoop fuel (.Or left right) rest
      | tokens => .ok (left, tokens)

/- `parse_and`. -/
def parseAnd
    (fuel : Nat)
    (tokens : List Token) :
    ParseResult BoolExpr :=
  match fuel with
  | 0 => .error .OutOfFuel
  | fuel + 1 =>
      andThen (parsePrimaryBool fuel tokens) (andLoop fuel)

def andLoop
    (fuel : Nat)
    (left : BoolExpr)
    (tokens : List Token) :
    ParseResult BoolExpr :=
  match fuel with
  | 0 => .error .OutOfFuel
  | fuel + 1 =>
      match tokens with
      | .And :: rest =>
          andThen (parsePrimaryBool fuel rest) fun right rest =>
            andLoop fuel (.And left right) rest
      | tokens => .ok (left, tokens)

/- `parse_primary_bool`. -/
def parsePrimaryBool
    (fuel : Nat)
    (tokens : List Token) :
    ParseResult BoolExpr :=
  match fuel with
  | 0 => .error .OutOfFuel
  | fuel + 1 =>
      if tokens.head?.any Token.isScalarStart then
        parseScalarBool tokens
      else
        parseBoolFactor fuel tokens

/- `parse_bool_factor`. -/
def parseBoolFactor
    (fuel : Nat)
    (tokens : List Token) :
    ParseResult BoolExpr :=
  match fuel with
  | 0 => .error .OutOfFuel
  | fuel + 1 =>
      match tokens with
      | .Bang :: rest =>
          andThen (parseBoolFactor fuel rest) fun inner rest =>
            .ok (.Not inner, rest)
      | .LParen :: rest =>
          andThen (parseOr fuel rest) fun inner rest =>
            match rest with
            | .RParen :: rest => .ok (inner, rest)
            | _ => .error .Rejected
      | .True :: rest => .ok (.True, rest)
      | .False :: rest => .ok (.False, rest)
      | .Exists :: rest =>
          andThen (parseSingleStringArgument rest) fun raw rest =>
            .ok (.Exists raw, rest)
      | .HasTrailingSlash :: rest =>
          andThen (parseSingleStringArgument rest) fun raw rest =>
            .ok (.HasTrailingSlash raw, rest)
      | .MsbuildVersionFunction inner :: rest =>
          .ok (.MsbuildVersionFunction inner, rest)
      | tokens =>
          if tokens.head?.any Token.isScalarStart then
            andThen (parseScalar tokens) fun scalar rest =>
              .ok (.CoerceBool scalar, rest)
          else
            .error .Rejected

end

------------------------------------------------------------
-- Evaluation
------------------------------------------------------------

inductive Issue
  | Undefined (name : List Char)
  | Unsupported (expression : List Char)
  deriving DecidableEq, Repr

/- What a condition reads: the substitution of expressions, with or
   without probes of files, a property's value, the names a text refers
   to, and the comparisons of versions and numbers. -/
structure Properties where
  substitute : Bool → List Char → Escaped × List Issue
  get : List Char → Option Escaped
  propertyReferences : List Char → List (List Char)
  compareMsbuildVersions : List Char → List Char → Option Ordering
  compareRelationalValues : List Char → List Char → Option Ordering
  compareNumbers : List Char → List Char → Option Bool

/- A result with the undefined names met on the way; `none` is an error. -/
abbrev EvalResult (α : Type) :=
  Option (α × List (List Char))

def mentions
    (mark s : List Char) :
    Bool :=
  s.tails.any fun t => mark.isPrefixOf t

/- `expand_for_condition`. -/
def expandForCondition
    (props : Properties)
    (fs : Bool)
    (raw : List Char) :
    EvalResult Escaped :=
  let (value, issues) := props.substitute fs raw
  let undefined := issues.filterMap fun
    | .Undefined name => some name
    | .Unsupported _ => none
  if issues.any fun
      | .Undefined _ => false
      | .Unsupported _ => true then
    none
  else if mentions "@(".toList value.text ||
      mentions "%(".toList value.text then
    none
  else
    some (value, undefined)

/- `expand_operand`. -/
def expandOperand
    (props : Properties)
    (fs : Bool)
    (raw : List Char) :
    EvalResult (List Char) :=
  match expandForCondition props fs raw with
  | none => none
  | some (value, undefined) => value.unescape.map (·, undefined)

/- The text between single quotes, or the text itself. -/
def unquoted
    (raw : List Char) :
    List Char :=
  ((stripFirst '\'' raw).bind (stripLast '\'')).getD raw

/- `split_dash_zero_property`. -/
def splitDashZeroProperty
    (raw : List Char) :
    Option (List Char) :=
  let raw := unquoted (trim raw)
  (((stripFirst '$' raw).bind (stripFirst '(')).bind (stripLast ')')).bind
    fun inner => stripTailIgnoreAsciiCase inner ".Split('-')[0]".toList

/- `expand_system_version_parse_arg`. -/
def expandSystemVersionParseArg
    (props : Properties)
    (fs : Bool)
    (raw : List Char) :
    EvalResult (List Char) :=
  match splitDashZeroProperty raw with
  | some property =>
      match props.get property with
      | some value =>
          value.unescape.map fun value => (value.takeWhile (· != '-'), [])
      | none => some ([], [property])
  | none => expandOperand props fs (unquoted (trim raw))

/- One component of `parse_system_version`. -/
def systemVersionComponent
    (part : List Char) :
    Option Nat :=
  let part := trimAsciiEnd (trimAsciiStart part)
  let part := (stripFirst '+' part).getD part
  if part = [] ∨ part.all Char.isDigit = false then
    none
  else if Nat.ofDigitChars 10 part 0 < 2 ^ 31 then
    some (Nat.ofDigitChars 10 part 0)
  else
    none

/- `parse_system_version`; missing components are `-1`. -/
def parseSystemVersion
    (value : List Char) :
    Option (List Int) :=
  let parts := value.splitOn '.'
  if 2 ≤ parts.length ∧ parts.length ≤ 4 then
    (parts.mapM systemVersionComponent).map fun version =>
      version.map Int.ofNat ++ List.replicate (4 - version.length) (-1)
  else
    none

/- `expand_scalar_for_condition`. -/
def expandScalarForCondition
    (props : Properties)
    (fs : Bool)
    (scalar : ScalarExpr) :
    EvalResult (List Char) :=
  match scalar with
  | .String raw => expandOperand props fs raw
  | .Bare raw => some (raw, [])
  | .Property raw => expandOperand props fs raw
  | .SystemVersionPart arg part =>
      match expandSystemVersionParseArg props fs arg with
      | none => none
      | some (value, undefined) =>
          (parseSystemVersion value).map fun version =>
            let idx :=
              match part with
              | .Build => 2
              | .Revision => 3
            ((toString (version.getD idx (-1))).toList, undefined)

/- `split_function_args`. -/
def splitFunctionArgs
    (inString : Bool)
    (parenDepth : Nat)
    (arg : List Char) :
    List Char → Option (List (List Char))
  | [] =>
      if inString || parenDepth != 0 then none else some [trim arg.reverse]
  | ch :: rest =>
      if inString then
        splitFunctionArgs (ch != '\'') parenDepth (ch :: arg) rest
      else if ch = '\'' then
        splitFunctionArgs true parenDepth (ch :: arg) rest
      else if ch = '(' then
        splitFunctionArgs false (parenDepth + 1) (ch :: arg) rest
      else if ch = ')' then
        match parenDepth with
        | 0 => none
        | depth + 1 => splitFunctionArgs false depth (ch :: arg) rest
      else if ch = ',' ∧ parenDepth = 0 then
        (splitFunctionArgs false parenDepth [] rest).map
          (trim arg.reverse :: ·)
      else
        splitFunctionArgs false parenDepth (ch :: arg) rest

/- `expand_function_arg_for_condition`. -/
def expandFunctionArgForCondition
    (props : Properties)
    (fs : Bool)
    (raw : List Char) :
    EvalResult (List Char) :=
  expandOperand props fs (unquoted (trim raw))

namespace CompareOp

/- Whether an ordering satisfies a comparison. -/
def holds
    (op : CompareOp)
    (ordering : Ordering) :
    Bool :=
  match op with
  | Eq => ordering.isEq
  | Neq => !ordering.isEq
  | Lt => ordering.isLT
  | Lte => !ordering.isGT
  | Gt => ordering.isGT
  | Gte => !ordering.isLT

/- Whether a comparison is an equality. -/
def isEquality
    (op : CompareOp) :
    Bool :=
  op == Eq || op == Neq

end CompareOp

/- `eval_msbuild_version_function`. -/
def evalMsbuildVersionFunction
    (props : Properties)
    (fs : Bool)
    (inner : List Char) :
    EvalResult Bool :=
  match parseMsbuildVersionFunctionCall inner with
  | none => none
  | some (function, rawArgs) =>
      match splitFunctionArgs false 0 [] rawArgs with
      | some [lhs, rhs] =>
          match expandFunctionArgForCondition props fs lhs,
              expandFunctionArgForCondition props fs rhs with
          | some (lhs, undefined), some (rhs, undefined') =>
              (props.compareMsbuildVersions lhs rhs).map fun ordering =>
                (function.holds ordering, undefined ++ undefined')
          | _, _ => none
      | _ => none

/- `parse_msbuild_bool`. -/
def parseMsbuildBool
    (value : List Char) :
    Option Bool :=
  if (["true", "on", "yes", "!false", "!off", "!no"].any
      fun t => eqIgnoreAsciiCase value t.toList) then
    some true
  else if (["false", "off", "no", "!true", "!on", "!yes"].any
      fun f => eqIgnoreAsciiCase value f.toList) then
    some false
  else
    none

def isAscii
    (s : List Char) :
    Bool :=
  s.all fun c => c.toNat < 0x80

/- `compare_equality_values`. -/
def compareEqualityValues
    (props : Properties)
    (lhs rhs : List Char) :
    Option Bool :=
  if lhs = rhs then
    some true
  else if lhs.isEmpty || rhs.isEmpty then
    some false
  else
    match props.compareNumbers lhs rhs with
    | some equal => some equal
    | none =>
        match parseMsbuildBool lhs, parseMsbuildBool rhs with
        | some lhs, some rhs => some (lhs == rhs)
        | _, _ =>
            if isAscii lhs && isAscii rhs then
              some (eqIgnoreAsciiCase lhs rhs)
            else
              none

/- `eval_bool`. -/
def evalBool
    (props : Properties)
    (files : Option (List Char → Bool)) :
    BoolExpr → EvalResult Bool
  | .True => some (true, [])
  | .False => some (false, [])
  | .Not inner =>
      (evalBool props files inner).map fun (value, undefined) =>
        (!value, undefined)
  | .And lhs rhs =>
      match evalBool props files lhs with
      | none => none
      | some (false, undefined) => some (false, undefined)
      | some (true, undefined) =>
          (evalBool props files rhs).map fun (value, undefined') =>
            (value, undefined ++ undefined')
  | .Or lhs rhs =>
      match evalBool props files lhs with
      | none => none
      | some (true, undefined) => some (true, undefined)
      | some (false, undefined) =>
          (evalBool props files rhs).map fun (value, undefined') =>
            (value, undefined ++ undefined')
  | .Exists raw =>
      match files with
      | none => none
      | some files =>
          match expandForCondition props true raw with
          | none => none
          | some (path, undefined) =>
              (MSBuild.unescape (trim path.text)).map fun path =>
                (files path, undefined)
  | .HasTrailingSlash raw =>
      match expandForCondition props files.isSome raw with
      | none => none
      | some (value, undefined) =>
          match value.splitList.mapM Escaped.unescape with
          | none => none
          | some [] => some (false, undefined)
          | some [item] =>
              some (item.getLast? == some '/' || item.getLast? == some '\\',
                undefined)
          | some _ => none
  | .MsbuildVersionFunction inner =>
      evalMsbuildVersionFunction props files.isSome inner
  | .CoerceBool scalar =>
      match expandScalarForCondition props files.isSome scalar with
      | none => none
      | some (value, undefined) =>
          (parseMsbuildBool value).map (·, undefined)
  | .Compare op lhs rhs =>
      match expandScalarForCondition props files.isSome lhs,
          expandScalarForCondition props files.isSome rhs with
      | some (lhs, undefined), some (rhs, undefined') =>
          if op.isEquality then
            (compareEqualityValues props lhs rhs).map fun equal =>
              ((if op = .Eq then equal else !equal),
                undefined ++ undefined')
          else
            (props.compareRelationalValues lhs rhs).map fun ordering =>
              (op.holds ordering, undefined ++ undefined')
      | _, _ => none

/- `scalar_refs_outside_empty_comparison`. -/
def scalarRefsOutsideEmptyComparison
    (props : Properties)
    (scalar : ScalarExpr) :
    List (List Char) :=
  match scalar with
  | .Bare _ => []
  | .String raw => props.propertyReferences raw
  | .Property raw => props.propertyReferences raw
  | .SystemVersionPart arg _ => props.propertyReferences arg

/- `refs_outside_empty_comparison`. -/
def refsOutsideEmptyComparison
    (props : Properties) :
    BoolExpr → List (List Char)
  | .True => []
  | .False => []
  | .Not inner => refsOutsideEmptyComparison props inner
  | .And lhs rhs =>
      refsOutsideEmptyComparison props lhs ++
        refsOutsideEmptyComparison props rhs
  | .Or lhs rhs =>
      refsOutsideEmptyComparison props lhs ++
        refsOutsideEmptyComparison props rhs
  | .Exists raw => props.propertyReferences raw
  | .HasTrailingSlash raw => props.propertyReferences raw
  | .MsbuildVersionFunction inner => props.propertyReferences inner
  | .CoerceBool scalar => scalarRefsOutsideEmptyComparison props scalar
  | .Compare op lhs rhs =>
      (if op.isEquality && rhs == .String [] then
        []
      else
        scalarRefsOutsideEmptyComparison props lhs) ++
      (if op.isEquality && lhs == .String [] then
        []
      else
        scalarRefsOutsideEmptyComparison props rhs)

inductive Outcome
  | True
  | False
  | Unsupported
  deriving DecidableEq, Repr

structure Eval where
  outcome : Outcome
  undefinedProperties : List (List Char)
  undefinedOutsideEmptyComparison : List (List Char)
  deriving DecidableEq, Repr

def unsupported :
    Eval :=
  { outcome := .Unsupported
    undefinedProperties := []
    undefinedOutsideEmptyComparison := [] }

/- Every token takes at most five levels of the parser. -/
def parserFuel
    (tokens : List Token) :
    Nat :=
  5 * tokens.length + 5

/- `evaluate_inner`. -/
def evaluateInner
    (props : Properties)
    (files : Option (List Char → Bool))
    (source : List Char) :
    Eval :=
  if trim source = [] then
    { outcome := .True
      undefinedProperties := []
      undefinedOutsideEmptyComparison := [] }
  else if mentions "@(".toList source || mentions "%(".toList source then
    unsupported
  else
    match tokenise source with
    | none => unsupported
    | some tokens =>
        match parseOr (parserFuel tokens) tokens with
        | .error _ => unsupported
        | .ok (_, _ :: _) => unsupported
        | .ok (expr, []) =>
            match evalBool props files expr with
            | none => unsupported
            | some (value, undefined) =>
                let outside := refsOutsideEmptyComparison props expr
                { outcome := if value then .True else .False
                  undefinedProperties := undefined
                  undefinedOutsideEmptyComparison :=
                    undefined.filter fun name =>
                      outside.any (eqIgnoreAsciiCase name) }

/- `evaluate`. -/
def evaluate
    (props : Properties)
    (source : List Char) :
    Eval :=
  evaluateInner props none source

end MSBuild

end Borzoi
