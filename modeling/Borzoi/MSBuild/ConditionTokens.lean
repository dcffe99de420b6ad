import Borzoi.NuGet.Version

/-
  Tokens of a condition.

  A bare property expression is cut out by a scan that knows single quotes
  only; `findClose` finds the end of an expression with all three string
  delimiters.  Structure is ASCII, so both count characters here.
-/

namespace Borzoi

namespace MSBuild

/- `is_string_delim`. -/
def isStringDelim
    (c : Char) :
    Bool :=
  c == '\'' || c == '\x60' || c == '"'

/- `scan_quote`. -/
def scanQuote
    (text : List Char)
    (delim : Char) :
    Option Nat :=
  text.findIdx? (· == delim)

/- `scan_paren` behind `depth + 1` open groups. -/
def scanParen
    (depth : Nat)
    (text : List Char) :
    Option Nat :=
  match text with
  | [] => none
  | c :: rest =>
      if isStringDelim c then
        match scanQuote rest c with
        | none => none
        | some close =>
            (scanParen depth (rest.drop (close + 1))).map (· + close + 2)
      else if c = '(' then
        (scanParen (depth + 1) rest).map (· + 1)
      else if c = ')' then
        match depth with
        | 0 => some 0
        | depth + 1 => (scanParen depth rest).map (· + 1)
      else
        (scanParen depth rest).map (· + 1)
termination_by text.length
decreasing_by all_goals simp; try omega

/- `find_close`. -/
def findClose
    (after : List Char) :
    Option Nat :=
  scanParen 0 after

/- `find_balanced_property_expression_close`. -/
def findBalancedPropertyExpressionClose
    (depth : Nat)
    (inString : Bool) :
    List Char → Option Nat
  | [] => none
  | ch :: rest =>
      if inString then
        (findBalancedPropertyExpressionClose depth (ch != '\'') rest).map
          (· + 1)
      else if ch = '\'' then
        (findBalancedPropertyExpressionClose depth true rest).map (· + 1)
      else if ch = '(' then
        (findBalancedPropertyExpressionClose (depth + 1) false rest).map
          (· + 1)
      else if ch = ')' then
        match depth with
        | 0 => some 0
        | depth + 1 =>
            (findBalancedPropertyExpressionClose depth false rest).map
              (· + 1)
      else
        (findBalancedPropertyExpressionClose depth false rest).map (· + 1)

inductive CompareOp
  | Eq
  | Neq
  | Lt
  | Lte
  | Gt
  | Gte
  deriving DecidableEq, Repr

inductive VersionPart
  | Build
  | Revision
  deriving DecidableEq, Repr

/- `u8::is_ascii_whitespace`. -/
def isAsciiWhitespace
    (c : Char) :
    Bool :=
  c == ' ' || c == '\t' || c == '\n' || c == '\x0c' || c == '\r'

def trimAsciiStart
    (s : List Char) :
    List Char :=
  s.dropWhile isAsciiWhitespace

def trimAsciiEnd
    (s : List Char) :
    List Char :=
  (s.reverse.dropWhile isAsciiWhitespace).reverse

/- `eq_ignore_ascii_case`. -/
def eqIgnoreAsciiCase
    (a b : List Char) :
    Bool :=
  a.map Char.toLower == b.map Char.toLower

/- `strip_prefix_ignore_ascii_case`. -/
def stripHeadIgnoreAsciiCase
    (s head : List Char) :
    Option (List Char) :=
  if eqIgnoreAsciiCase (s.take head.length) head then
    some (s.drop head.length)
  else
    none

/- `strip_suffix_ignore_ascii_case`. -/
def stripTailIgnoreAsciiCase
    (s tail : List Char) :
    Option (List Char) :=
  if s.length < tail.length then
    none
  else if eqIgnoreAsciiCase (s.drop (s.length - tail.length)) tail then
    some (s.take (s.length - tail.length))
  else
    none

/- `str::strip_prefix` and `str::strip_suffix` of one character. -/
def stripFirst
    (c : Char)
    (s : List Char) :
    Option (List Char) :=
  if s.head? = some c then some s.tail else none

def stripLast
    (c : Char)
    (s : List Char) :
    Option (List Char) :=
  if s.getLast? = some c then some s.dropLast else none

def versionFunctions :
    List (List Char × CompareOp) :=
  [("[MSBuild]::VersionGreaterThanOrEquals".toList, .Gte),
    ("[MSBuild]::VersionGreaterThan".toList, .Gt),
    ("[MSBuild]::VersionLessThanOrEquals".toList, .Lte),
    ("[MSBuild]::VersionLessThan".toList, .Lt),
    ("[MSBuild]::VersionEquals".toList, .Eq),
    ("[MSBuild]::VersionNotEquals".toList, .Neq)]

/- `parse_msbuild_version_function_call`. -/
def parseMsbuildVersionFunctionCall
    (inner : List Char) :
    Option (CompareOp × List Char) :=
  match versionFunctions.findSome? fun f =>
      (stripHeadIgnoreAsciiCase inner f.1).map fun rest => (f.2, rest) with
  | none => none
  | some (op, rest) =>
      ((stripFirst '(' (trimAsciiStart rest)).bind (stripLast ')')).map
        fun args => (op, args)

/- `parse_system_version_part_token`. -/
def parseSystemVersionPartToken
    (inner : List Char) :
    Option (List Char × VersionPart) :=
  match (stripHeadIgnoreAsciiCase inner
      "[System.Version]::Parse".toList).bind fun rest =>
        stripFirst '(' (trimAsciiStart rest) with
  | none => none
  | some rest =>
      let rest := trimAsciiEnd rest
      let part :=
        match stripTailIgnoreAsciiCase rest ".Build".toList with
        | some rest => some (rest, VersionPart.Build)
        | none =>
            (stripTailIgnoreAsciiCase rest ".Revision".toList).map
              fun rest => (rest, VersionPart.Revision)
      part.bind fun (rest, part) =>
        (stripLast ')' (trimAsciiEnd rest)).map fun arg => (arg, part)

inductive Token
  | String (text : List Char)
  | Bare (text : List Char)
  | SystemVersionPart (arg : List Char) (part : VersionPart)
  | Property (raw : List Char)
  | True
  | False
  | Exists
  | HasTrailingSlash
  | MsbuildVersionFunction (inner : List Char)
  | And
  | Or
  | Eq
  | Neq
  | Lt
  | Lte
  | Gt
  | Gte
  | Bang
  | LParen
  | RParen
  | Unknown
  deriving DecidableEq, Repr

/- `$(inner)`. -/
def expression
    (inner : List Char) :
    List Char :=
  '$' :: '(' :: (inner ++ [')'])

/- The token of a bare expression. -/
def classify
    (rawInner : List Char) :
    Token :=
  let inner := trimAsciiEnd (trimAsciiStart rawInner)
  if (parseMsbuildVersionFunctionCall inner).isSome then
    .MsbuildVersionFunction inner
  else
    match parseSystemVersionPartToken inner with
    | some (arg, part) => .SystemVersionPart arg part
    | none =>
        if inner.contains '(' || inner.contains '[' then
          .Property (expression inner)
        else if rawInner = inner then
          .Property (expression inner)
        else
          .Unknown

/- `match_keyword`. -/
def matchKeyword
    (word : List Char) :
    Token :=
  if eqIgnoreAsciiCase word "true".toList then
    .True
  else if eqIgnoreAsciiCase word "false".toList then
    .False
  else if eqIgnoreAsciiCase word "and".toList then
    .And
  else if eqIgnoreAsciiCase word "or".toList then
    .Or
  else if eqIgnoreAsciiCase word "exists".toList then
    .Exists
  else if eqIgnoreAsciiCase word "hastrailingslash".toList then
    .HasTrailingSlash
  else
    .Bare word

def isHexDigit
    (c : Char) :
    Bool :=
  c.isDigit || ('a' ≤ c && c ≤ 'f') || ('A' ≤ c && c ≤ 'F')

def isIdentStart
    (c : Char) :
    Bool :=
  c.isAlpha || c == '_'

def isIdentContinue
    (c : Char) :
    Bool :=
  c.isAlphanum || c == '_'

/- How many characters a bare number takes. -/
def numericLength
    (c : Char)
    (rest : List Char) :
    Nat :=
  if c = '0' ∧ (rest.head? = some 'x' ∨ rest.head? = some 'X') ∧
      1 < rest.length then
    2 + ((rest.drop 1).takeWhile isHexDigit).length
  else if c = '+' ∨ c = '-' then
    1 + (rest.takeWhile fun c => c.isDigit || c == '.').length
  else
    ((c :: rest).takeWhile fun c => c.isDigit || c == '.').length

/- One turn of the tokeniser: its tokens and the text behind them. -/
def tokenStep
    (c : Char)
    (rest : List Char) :
    Option (List Token × List Char) :=
  if isAsciiWhitespace c then
    some ([], rest)
  else
    match c, rest with
    | '(', rest => some ([.LParen], rest)
    | ')', rest => some ([.RParen], rest)
    | '=', '=' :: rest => some ([.Eq], rest)
    | '!', '=' :: rest => some ([.Neq], rest)
    | '<', '=' :: rest => some ([.Lte], rest)
    | '>', '=' :: rest => some ([.Gte], rest)
    | '<', rest => some ([.Lt], rest)
    | '>', rest => some ([.Gt], rest)
    | '!', rest => some ([.Bang], rest)
    | '\'', rest =>
        match rest.findIdx? (· == '\'') with
        | none => none
        | some close =>
            some ([.String (rest.take close)], rest.drop (close + 1))
    | '$', '(' :: after =>
        match findBalancedPropertyExpressionClose 0 false after with
        | none => some ([.Unknown], '(' :: after)
        | some close =>
            some ([classify (after.take close)], after.drop (close + 1))
    | c, rest =>
        if c.isDigit || c == '.' || c == '+' || c == '-' then
          let n := numericLength c rest
          some ([.Bare ((c :: rest).take n)], (c :: rest).drop n)
        else if isIdentStart c then
          let word := (c :: rest).takeWhile isIdentContinue
          some ([matchKeyword word], (c :: rest).drop word.length)
        else
          -- one token for each byte of the character
          some (List.replicate c.utf8Size .Unknown, rest)

/- `tokenise` with a bound on its turns. -/
def tokeniseLoop :
    Nat → List Char → Option (List Token)
  | _, [] => some []
  | 0, _ :: _ => none
  | n + 1, c :: rest =>
      match tokenStep c rest with
      | none => none
      | some (tokens, rest) => (tokeniseLoop n rest).map (tokens ++ ·)

/- Every turn takes a character. -/
def tokenise
    (source : List Char) :
    Option (List Token) :=
  tokeniseLoop source.length source

end MSBuild

end Borzoi
