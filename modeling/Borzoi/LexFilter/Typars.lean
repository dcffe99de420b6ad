import Borzoi.LexFilter.Operations

/-
  Lookahead: long identifiers and type applications.

  Lookahead pops tokens and puts them back.  A successful scan for a
  type application also splits the operators it crossed.  The loops
  take a bound on the tokens left to read.
-/

namespace Borzoi

namespace LexFilter

open Lexer

/- An operator that starts with `>`, cut into its `>`s and a tail. -/
structure TyparsCloseSplit where
  greaterCount : Nat
  tail : Option Token
  deriving DecidableEq, Repr

/- The token of a tail, `none` for a tail that is not accepted. -/
def typarsCloseTail
    (after : List Char) :
    Option (Option Token) :=
  match after with
  | [] => some none
  | ['.'] => some (some .Dot)
  | [']'] => some (some .RBrack)
  | ['.', '.'] => some (some .DotDot)
  | ['?'] => some (some .QMark)
  | ['?', '?'] => some (some .QMarkQMark)
  | [':', '='] => some (some .ColonEquals)
  | [':', ':'] => some (some .ColonColon)
  | ['&'] => some (some .Amp)
  | ['-', '>'] => some (some .RArrow)
  | ['<', '-'] => some (some .LArrow)
  | ['='] => some (some .Equals)
  | ['<'] => some (some (.Less false))
  | ['$'] => some (some .Dollar)
  | first :: _ =>
      if ['=', '<', '>', '$', '&', '|', '!', '?', '~', '@', '^', '+',
          '-', '*', '/', '%'].contains first then
        some (some (.Op after))
      else
        none

/- `typars_close_op_split`. -/
def typarsCloseOpSplit
    (opText : List Char) :
    Option TyparsCloseSplit :=
  if opText.head? = some '>' then
    let greaterCount := (opText.takeWhile (· == '>')).length
    match typarsCloseTail (opText.drop greaterCount) with
    | some tail => some ⟨greaterCount, tail⟩
    | none => none
  else
    none

/- `is_typar_application_trigger`. -/
def isTyparApplicationTrigger
    (content : TokenContent) :
    Bool :=
  match content with
  | .Real (.Ident _) | .Real (.QuotedIdent _) | .Real .Delegate
  | .Real (.Int _) | .Real (.IntSuffixed _) | .Real (.XInt _)
  | .Real (.XIntSuffixed _) | .Real (.XIEEE32 _)
  | .Real (.XIEEE64 _) | .Real (.Float32 _) | .Real (.Float64 _)
  | .Real (.Decimal _) | .Real (.BigNum _) => true
  | _ => false

/- What the scan does at a token. -/
inductive TyparScanAction
  | Fail
  | Continue
  | OpenParen
  | ClosePlain
  | CloseGreater
  | CloseGreaterWithAfter
  | CloseOpSplit (greaterCount : Nat) (hasTail : Bool)
  | OtherToken
  deriving DecidableEq, Repr

/- The operators that open an application: `</` and `<^`. -/
def isOpenerOp
    (s : List Char) :
    Bool :=
  s == "</".toList || s == "<^".toList

/- The scan's action at an operator. -/
def classifyTyparScanOp
    (s : List Char) :
    TyparScanAction :=
  if isOpenerOp s then
    .OpenParen
  else if s.head? = some '>' then
    match typarsCloseOpSplit s with
    | some split => .CloseOpSplit split.greaterCount split.tail.isSome
    | none => .OtherToken
  else if ["^".toList, "^-".toList, "/".toList, "*".toList,
      "-".toList].contains s then
    .Continue
  else
    .OtherToken

/- `classify_typar_scan_token`. -/
def classifyTyparScanToken
    (content : TokenContent) :
    TyparScanAction :=
  match content with
  | .Eof => .Fail
  | .Real token =>
      match token with
      | .SemiSemi => .Fail
      | .LParen | .LBrack | .LBrackLess | .Less _ | .LQuote =>
          .OpenParen
      | .RParen | .RBrack => .ClosePlain
      | .Greater _ => .CloseGreater
      | .GreaterRBrack => .CloseGreaterWithAfter
      | .Op s => classifyTyparScanOp s
      | .Default | .Colon | .ColonGreater | .Struct | .Null
      | .Delegate | .And | .When | .Amp | .Bar | .DotDot | .New
      | .LBraceBar | .Semi | .BarRBrace | .Global | .Const | .Dot
      | .Underscore | .Equals | .Comma | .RArrow | .Hash | .Quote
      | .True | .False | .Ident _ | .QuotedIdent _
      | .KeywordString _ | .Int _ | .IntSuffixed _ | .XInt _
      | .XIntSuffixed _ | .XIEEE32 _ | .XIEEE64 _ | .Float32 _
      | .Float64 _ | .Decimal _ | .BigNum _ | .String
      | .TripleString | .VerbatimString | .Char _ => .Continue
      | _ => .OtherToken
  | .Err _ | .Virtual _ | .Dummy _ _ => .OtherToken

namespace FilterM

/- The next token is the given one and touches `tt`. -/
def nextTokenIsAdjacent
    (token : Token)
    (tt : TokenTup) :
    FilterM Bool := do
  match ← peekNextTokenTup with
  | none => return false
  | some next => return next.token == .Real token && isAdjacent tt next

def nextTokenIsAdjacentLparen : TokenTup → FilterM Bool :=
  nextTokenIsAdjacent .LParen

def nextTokenIsAdjacentLbrack : TokenTup → FilterM Bool :=
  nextTokenIsAdjacent .LBrack

/- `is_control_flow_or_not_same_line`. -/
def isControlFlowOrNotSameLine
    (tt : TokenTup) :
    FilterM Bool := do
  if tt.token = .Eof then
    return false
  else
    match ← peekNextTokenTup with
    | none => return false
    | some next =>
        return next.start.line != tt.start.line ||
          next.token.isAnyOf
            [.Try, .Match, .MatchBang, .If, .Let, .Use, .For, .While,
              .WhileBang]

/- `is_long_ident_equals_loop`. -/
def isLongIdentEqualsLoop
    (fuel : Nat) :
    FilterM Bool := do
  match fuel with
  | 0 => panic .LoopBound
  | fuel + 1 =>
      match ← popNextTokenTup with
      | none => return false
      | some tt =>
          if tt.token = .Real .Equals then
            delayToken tt
            return true
          else if tt.token = .Real .Dot then
            match ← popNextTokenTup with
            | none =>
                delayToken tt
                return false
            | some afterDot =>
                let res ←
                  if afterDot.token.isIdent then
                    isLongIdentEqualsLoop fuel
                  else
                    pure false
                delayToken afterDot
                delayToken tt
                return res
          else
            delayToken tt
            return false

/- `is_long_ident_equals`. -/
def isLongIdentEquals
    (content : TokenContent) :
    FilterM Bool := do
  if content.isIdent || content == .Real .Global then
    isLongIdentEqualsLoop (← core .tokensLeft)
  else
    return false

/- `delay_pair_split_at_1`. -/
def delayPairSplitAt1
    (tt : TokenTup)
    (headTok tailTok : Token) :
    FilterM Unit := do
  let midByte := tt.span.start + 1
  delayToken
    ⟨.Real tailTok, ⟨midByte, tt.span.stop⟩,
      ⟨tt.start.line, tt.start.col + 1⟩, tt.stop⟩
  let headCol ← sub tt.stop.col 1
  delayToken
    ⟨.Real headTok, ⟨tt.span.start, midByte⟩, tt.start,
      ⟨tt.stop.line, headCol⟩⟩

/- The `i`th `>` of a closing operator. -/
def greaterTup
    (tt : TokenTup)
    (res : Bool)
    (i : Nat) :
    TokenTup :=
  ⟨.Real (.Greater res), ⟨tt.span.start + i, tt.span.start + i + 1⟩,
    ⟨tt.start.line, tt.start.col + i⟩,
    ⟨tt.start.line, tt.start.col + (i + 1)⟩⟩

/- Delay the first `count` `>`s, last one first. -/
def delayGreaters
    (tt : TokenTup)
    (res : Bool)
    (count : Nat) :
    FilterM Unit := do
  match count with
  | 0 => return ()
  | count + 1 =>
      delayToken (greaterTup tt res count)
      delayGreaters tt res count

/-
  The tail of a closing operator.  A `|` tail fuses with a `]` or `}`
  that touches it.
-/
def closeTail
    (tt : TokenTup)
    (greaterCount : Nat)
    (tail : Token) :
    FilterM TokenTup := do
  let start : Pos := ⟨tt.start.line, tt.start.col + greaterCount⟩
  let plain : TokenTup :=
    ⟨.Real tail, ⟨tt.span.start + greaterCount, tt.span.stop⟩,
      start, tt.stop⟩
  if tail = .Op "|".toList then
    match ← peekNextTokenTup with
    | none => return plain
    | some next =>
        if next.span.start = tt.span.stop ∧
            (next.token = .Real .RBrack ∨
              next.token = .Real .RBrace) then
          let next ← expect (← popNextTokenTup)
          let fused :=
            if next.token = .Real .RBrack then
              Token.BarRBrack
            else
              Token.BarRBrace
          return ⟨.Real fused,
            ⟨tt.span.start + greaterCount, next.span.stop⟩,
            start, next.stop⟩
        else
          return plain
  else
    return plain

/- Put back a closing operator as its pieces. -/
def smashCloseOp
    (tt : TokenTup)
    (split : TyparsCloseSplit)
    (res : Bool) :
    FilterM Unit := do
  match split.tail with
  | none => pure ()
  | some tail => delayToken (← closeTail tt split.greaterCount tail)
  delayGreaters tt res split.greaterCount

/- `smash_typar_token`. -/
def smashTyparToken
    (tt : TokenTup)
    (res : Bool) :
    FilterM Unit := do
  match tt.token with
  | .Real .LQuote => delayPairSplitAt1 tt (.Less res) (.Op "@".toList)
  | .Real .GreaterRBrack =>
      delayPairSplitAt1 tt (.Greater res) .RBrack
  | .Real (.Greater _) => delayToken (tt.withToken (.Real (.Greater res)))
  | .Real (.Op s) =>
      if s = "</".toList then
        delayPairSplitAt1 tt (.Less res) (.Op "/".toList)
      else if s = "<^".toList then
        delayPairSplitAt1 tt (.Less res) (.Op "^".toList)
      else if s = ">:".toList then
        delayPairSplitAt1 tt (.Greater res) .Colon
      else
        match typarsCloseOpSplit s with
        | none => delayToken tt
        | some split => smashCloseOp tt split res
  | _ => delayToken tt

/- Put the scanned tokens back, the last one first. -/
def unwindTyparScan
    (stack : List (TokenTup × Bool))
    (res : Bool) :
    FilterM Unit := do
  match stack with
  | [] => return ()
  | (tt, smash) :: rest =>
      if smash then smashTyparToken tt res else delayToken tt
      unwindTyparScan rest res

/- How a scan ended, with the tokens it popped, the last one first. -/
structure TyparScan where
  stack : List (TokenTup × Bool)
  succeeded : Bool
  adjLparenAfterClose : Bool

/- The operator splits into `>`s and a `|`. -/
def tailIsPipe
    (content : TokenContent) :
    Bool :=
  match content with
  | .Real (.Op s) =>
      (typarsCloseOpSplit s).any fun split =>
        split.tail == some (.Op "|".toList)
  | _ => false

/- Pop a `]` or `}` that touches a `|` tail. -/
def popPipeTrailer
    (tok : TokenTup) :
    FilterM (List (TokenTup × Bool)) := do
  if tailIsPipe tok.token then
    match ← peekNextTokenTup with
    | none => return []
    | some next =>
        if isAdjacent tok next ∧
            (next.token = .Real .RBrack ∨
              next.token = .Real .RBrace) then
          let popped ← expect (← popNextTokenTup)
          return [(popped, false)]
        else
          return []
  else
    return []

/- The scan loop. -/
def typarScanLoop
    (indentation : Bool)
    (headEnd : Pos)
    (fuel : Nat)
    (nParen : Int)
    (stack : List (TokenTup × Bool)) :
    FilterM TyparScan := do
  match fuel with
  | 0 => panic .LoopBound
  | fuel + 1 =>
      match ← popNextTokenTup with
      | none => return ⟨stack, false, false⟩
      | some tok =>
          let taken := (tok, true) :: stack
          if indentation && (tok.start.line < headEnd.line ||
              (tok.start.line == headEnd.line &&
                tok.start.col < headEnd.col)) then
            return ⟨taken, false, false⟩
          else
            match classifyTyparScanToken tok.token with
            | .Fail => return ⟨taken, false, false⟩
            | .Continue =>
                typarScanLoop indentation headEnd fuel nParen taken
            | .OpenParen =>
                typarScanLoop indentation headEnd fuel (nParen + 1)
                  taken
            | .ClosePlain =>
                if nParen - 1 ≤ 0 then
                  return ⟨taken, false, false⟩
                else
                  typarScanLoop indentation headEnd fuel (nParen - 1)
                    taken
            | .CloseGreater =>
                if 0 < nParen - 1 then
                  typarScanLoop indentation headEnd fuel (nParen - 1)
                    taken
                else
                  return ⟨taken, true, ← nextTokenIsAdjacentLparen tok⟩
            | .CloseGreaterWithAfter =>
                if 0 < nParen - 1 then
                  typarScanLoop indentation headEnd fuel (nParen - 1)
                    ((tok, false) :: stack)
                else
                  return ⟨taken, true, false⟩
            | .CloseOpSplit greaterCount hasTail =>
                if 0 < nParen - greaterCount then
                  let trailer ← popPipeTrailer tok
                  typarScanLoop indentation headEnd fuel
                    (nParen - greaterCount)
                    (trailer ++ (tok, !hasTail) :: stack)
                else if hasTail then
                  return ⟨taken, true, false⟩
                else
                  return ⟨taken, true, ← nextTokenIsAdjacentLparen tok⟩
            | .OtherToken =>
                if nParen ≤ 1 then
                  return ⟨taken, false, false⟩
                else
                  typarScanLoop indentation headEnd fuel nParen taken

/- The tokens that may open a type application. -/
def isTyparOpener
    (content : TokenContent) :
    Bool :=
  match content with
  | .Real (.Less _) => true
  | .Real .LQuote => true
  | .Real (.Op s) => isOpenerOp s
  | _ => false

/- `peek_adjacent_typars`. -/
def peekAdjacentTypars
    (indentation : Bool)
    (head : TokenTup) :
    FilterM Bool := do
  match ← peekNextTokenTup with
  | none => return false
  | some lookahead =>
      if isTyparOpener lookahead.token && isAdjacent head lookahead then
        let opener ← expect (← popNextTokenTup)
        let scan ← typarScanLoop indentation head.stop
          (← core .tokensLeft) 1 [(opener, true)]
        let stack ←
          if scan.adjLparenAfterClose then
            let lparen ← expect (← peekNextTokenTup)
            pure ((lparen.asVirtual .HighPrecedenceParenApp, false) ::
              scan.stack)
          else
            pure scan.stack
        unwindTyparScan stack scan.succeeded
        return scan.succeeded
      else
        return false

end FilterM

end LexFilter

end Borzoi
