import Borzoi.LexFilter.Rules.Pushes

/-
  Rules for interpolated strings, brackets, queued tokens, type
  applications and plain tokens.
-/

namespace Borzoi

namespace LexFilter

open Lexer
open FilterM

/- Fragments that open a fill of a string. -/
def opensFill
    (token : TokenContent) :
    Bool :=
  match token with
  | .Real (.InterpString .Begin) => true
  | .Real (.InterpString .TripleBegin) => true
  | .Real (.InterpString .VerbatimBegin) => true
  | .Real (.InterpString (.ExtendedBegin _)) => true
  | _ => false

def interpOpenRule : Rule := fun tt => do
  if opensFill tt.token then
    pushParen tt.stop .InterpFill .No tt
    setLastRealEnd tt.span.stop
    return .Emit tt
  else
    return .Pass tt

/- Fragments that close a fill. -/
def fillClosers : List Token :=
  [.InterpString (.End false), .InterpString (.End true),
    .InterpString .Part]

/- Pop the paren a closer balances. -/
def popParen : FilterM Unit := do
  let _ ← popCtxt
  let depth ← core .parenDepth
  core (.setParenDepth (depth - 1))

def interpCloseRule : Rule := fun tt => do
  if tt.token.isAnyOf fillClosers then
    if tokenBalancesHeadContext tt.token (← offsideStack) then
      popParen
      if tt.token = .Real (.InterpString .Part) then
        pushParen tt.stop .InterpFill .No tt
      else
        pure ()
    else
      pure ()
    setLastRealEnd tt.span.stop
    return .Emit tt
  else
    return .Pass tt

/- The opener of a bracket and whether its block is closed. -/
def parenOpener
    (token : TokenContent) :
    Option (Opener × AddBlockEnd) :=
  match token with
  | .Real .LParen => some (.Paren, .No)
  | .Real .LBrace => some (.Brace, .No)
  | .Real .LBrack => some (.Brack, .No)
  | .Real .LBrackBar => some (.BrackBar, .No)
  | .Real .LBraceBar => some (.BraceBar, .No)
  | .Real .Begin => some (.Begin, .No)
  | .Real .Sig => some (.Sig, .No)
  | .Real .Class => some (.Class, .Yes)
  | .Real .LQuote => some (.Quote, .No)
  | .Real .LQuoteRaw => some (.QuoteRaw, .No)
  | .Real (.Less true) => some (.TyparAngle, .No)
  | _ => none

def parenOpenRule : Rule := fun tt => do
  match parenOpener tt.token with
  | some (opener, addBlockEnd) =>
      pushParen tt.start opener addBlockEnd tt
      return .Emit tt
  | none => return .Pass tt

/- The closers the filter swallows. -/
def swallowedClosers : List Token :=
  [.RParen, .RBrace]

/- The closers the filter emits. -/
def emittedClosers : List Token :=
  [.RBrack, .BarRBrack, .BarRBrace, .End, .RQuote, .RQuoteRaw,
    .Greater true]

/- Balance a closer and queue the dummy that stands for it. -/
def balanceCloser
    (tt : TokenTup) :
    FilterM Unit := do
  if tokenBalancesHeadContext tt.token (← offsideStack) then
    popParen
    match tt.token with
    | .Real inner => delayDummy tt inner
    | _ => pure ()
  else
    return ()

def parenCloseRule : Rule := fun tt => do
  if tt.token.isAnyOf swallowedClosers then
    balanceCloser tt
    setLastRealEnd tt.span.stop
    return .Restart
  else if tt.token.isAnyOf emittedClosers then
    balanceCloser tt
    return .Emit tt
  else
    return .Pass tt

/- A dummy has had its offside effect and disappears. -/
def dummyRule : Rule := fun tt =>
  match tt.token with
  | .Dummy _ _ => return .Restart
  | _ => return .Pass tt

def blockBeginRule : Rule := fun tt =>
  if tt.token = .Virtual .BlockBegin then
    return .Emit tt
  else
    return .Pass tt

/- `f<int>`: mark the `<` and queue the application virtual. -/
def typeAppRule : Rule := fun tt => do
  if isTyparApplicationTrigger tt.token then
    if ← peekAdjacentTypars false tt then
      let less ← expect (← popNextTokenTup)
      delayToken (less.withToken (.Real (.Less true)))
      delayToken (less.asVirtual .HighPrecedenceTyApp)
      return .Emit tt
    else
      return .Pass tt
  else
    return .Pass tt

/- Whether the content is a raw token. -/
def TokenContent.isReal
    (content : TokenContent) :
    Bool :=
  match content with
  | .Real _ => true
  | _ => false

/- The first plain token of a block element. -/
def vanillaRule : Rule := fun tt => do
  if tt.token.isReal && isSeqBlock (← head) then
    let isLongIdentEquals ← isLongIdentEquals tt.token
    pushCtxt tt.span (.Vanilla tt.start isLongIdentEquals)
    return .Emit tt
  else
    return .Pass tt

/- `interp_and_paren`. -/
def interpAndParen : Rule :=
  firstOf
    [interpOpenRule, interpCloseRule, parenOpenRule, parenCloseRule,
      dummyRule, blockBeginRule, typeAppRule, vanillaRule]

end LexFilter

end Borzoi
