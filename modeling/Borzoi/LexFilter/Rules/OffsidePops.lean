import Borzoi.LexFilter.Rules.Heads

/-
  Rules that pop contexts a token is offside of.
-/

namespace Borzoi

namespace LexFilter

open Lexer
open FilterM

/- A plain token ends at a token no further right. -/
def vanillaOffsideRule : Rule := fun tt => do
  match ← head with
  | some (.Vanilla pos _) =>
      if tt.token = .Real .SemiSemi ∨ tt.start.col ≤ pos.col then
        popAndClose none tt
      else
        return .Pass tt
  | _ => return .Pass tt

/- The context below a block keeps `;;` inside it. -/
def keepsSemiSemi
    (below : Option Context) :
    Bool :=
  match below with
  | some (.NamespaceBody _) => true
  | some (.ModuleBody _ true) => true
  | _ => false

/- The grace of an infix token: its length and a space. -/
def infixGrace
    (token : TokenContent) :
    Int :=
  if tokenIsInfix token then infixTokenLength token + 1 else 0

/- How far left of a block's column a token still belongs to it. -/
def blockGrace
    (token : TokenContent)
    (pos : Pos)
    (below : Option Context) :
    Int :=
  match below with
  | some (.TypeDefns typePos _) =>
      if token = .Real .Bar then
        2
      else if pos.col = typePos.col ∧
          ¬ isTypeSeqBlockElementContinuator token then
        -1
      else
        infixGrace token
  | some (.NamespaceBody nsPos) =>
      if token = .Real .Namespace ∧ pos.col = nsPos.col then
        -1
      else
        infixGrace token
  | _ => infixGrace token

/- The closing virtual of a block. -/
def blockClosing
    (addBlockEnd : AddBlockEnd) :
    Option Virtual :=
  match addBlockEnd with
  | .Yes => some .BlockEnd
  | .OneSided => some .RightBlockEnd
  | .No => none

/- A block ends at a token left of its column. -/
def seqBlockOffsideRule : Rule := fun tt => do
  match ← offsideStack with
  | .SeqBlock _ pos addBlockEnd :: rest =>
      let isSemiSemi :=
        tt.token == .Real .SemiSemi && !keepsSemiSemi rest.head?
      let grace := blockGrace tt.token pos rest.head?
      if isSemiSemi = true ∨
          (tt.start.col : Int) + grace < (pos.col : Int) then
        popAndClose (blockClosing addBlockEnd) tt
      else
        return .Pass tt
  | _ => return .Pass tt

/- The first token of a block clears the block's first-token flag. -/
def firstTokenRule
    (useBlockRule : Bool) :
    Rule := fun tt => do
  match useBlockRule, ← head with
  | true, some (.SeqBlock true pos addBlockEnd) =>
      replaceCtxt tt.span (.SeqBlock false pos addBlockEnd)
      delayToken tt
      return .RestartWithoutBlockRule
  | _, _ => return .Pass tt

/- The token is a prefix operator glued to what follows. -/
def adjacentPrefixOp
    (tt : TokenTup) :
    FilterM Bool := do
  let wasAtomicEnd ← core .lastRealWasAtomicEnd
  let lastEnd ← core .lastRealEnd
  let gluedLeftToAtomic := wasAtomicEnd && lastEnd == tt.span.start
  if !gluedLeftToAtomic && isAdjacentPrefixCapableOp tt.token then
    match ← peekNextTokenTup with
    | none => return false
    | some next => return isAdjacent tt next
  else
    return false

/- A token at the block's column continues the block's element. -/
def suppressBlockSep
    (token : TokenContent)
    (prefixOp : Bool)
    (below : Option Context) :
    Bool :=
  match below with
  | some (.NamespaceBody _) => token == .Real .Namespace
  | some (.TypeDefns _ _) => isTypeSeqBlockElementContinuator token
  | _ => !prefixOp && isSeqBlockElementContinuator token

/- A token at the column of its block starts a new element. -/
def blockSepRule
    (useBlockRule : Bool) :
    Rule := fun tt => do
  match useBlockRule, ← offsideStack with
  | true, .SeqBlock false pos addBlockEnd :: rest =>
      if tt.start.col = pos.col ∧ tt.start.line ≠ pos.line then
        let prefixOp ← adjacentPrefixOp tt
        if suppressBlockSep tt.token prefixOp rest.head? then
          return .Pass tt
        else
          replaceCtxt tt.span (.SeqBlock true pos addBlockEnd)
          return .Emit (← insertTokenFromPrevToCurrent .BlockSep tt)
      else
        return .Pass tt
  | _, _ => return .Pass tt

/- `block_offside`. -/
def blockOffside
    (useBlockRule : Bool) :
    Rule :=
  firstOf
    [vanillaOffsideRule, seqBlockOffsideRule,
      firstTokenRule useBlockRule, blockSepRule useBlockRule]

/- Queue a dummy that stands for the token being balanced. -/
def delayDummy
    (tt : TokenTup)
    (inner : Token) :
    FilterM Unit := do
  let prevEnd ← core .lastRealEnd
  delayToken (tt.withToken (.Dummy prevEnd inner))

/- `in` ends a `let`. -/
def inBalancesLetRule : Rule := fun tt => do
  match ← head with
  | some (.LetDecl blockLet _) =>
      if tt.token = .Real .In then
        let _ ← popCtxt
        delayDummy tt .In
        if blockLet then
          setLastRealEnd tt.span.stop
          return .Emit (tt.asVirtual .DeclEnd)
        else
          return .Emit tt
      else
        return .Pass tt
  | _ => return .Pass tt

/- `done` ends a `do`. -/
def doneBalancesDoRule : Rule := fun tt => do
  match ← head with
  | some (.Do _) =>
      if tt.token = .Real .Done then
        let _ ← popCtxt
        setLastRealEnd tt.span.stop
        delayToken (tt.asVirtual .DeclEnd)
        return .Restart
      else
        return .Pass tt
  | _ => return .Pass tt

/- `in_done_balances`. -/
def inDoneBalances : Rule :=
  firstOf [inBalancesLetRule, doneBalancesDoRule]

/-
  Pop the head when `anchor` selects it and the token is `;;` or at
  most at its column.  Tokens in `slack` count one column further
  right.
-/
def offsidePop
    (anchor : Context → Option Pos)
    (slack : TokenContent → Bool)
    (closing : Option Virtual) :
    Rule := fun tt => do
  match (← head).bind anchor with
  | some pos =>
      if tt.token = .Real .SemiSemi ∨
          tt.start.col + (slack tt.token).toNat ≤ pos.col then
        popAndClose closing tt
      else
        return .Pass tt
  | none => return .Pass tt

/- The slack of queued closers and of a class of tokens. -/
def relaxedOr
    (cls : TokenContent → Bool)
    (token : TokenContent) :
    Bool :=
  isRelaxWhitespace2OffsideRule token || cls token

/- No slack. -/
def noSlack
    (_ : TokenContent) :
    Bool :=
  false

def matchOffsideRule : Rule :=
  offsidePop (fun | .Match pos => some pos | _ => none)
    (relaxedOr isMatchBlockContinuator) none

def tryOffsideRule : Rule :=
  offsidePop (fun | .Try pos => some pos | _ => none)
    (relaxedOr isTryBlockContinuator) none

def forOffsideRule : Rule :=
  offsidePop (fun | .For pos _ => some pos | _ => none)
    (relaxedOr isForLoopContinuator) none

def doOffsideRule : Rule :=
  offsidePop (fun | .Do pos => some pos | _ => none)
    isDoContinuator (some .DeclEnd)

def whileOffsideRule : Rule :=
  offsidePop (fun | .While pos _ => some pos | _ => none)
    (relaxedOr isWhileBlockContinuator) none

def whenOffsideRule : Rule :=
  offsidePop (fun | .When pos => some pos | _ => none)
    isRelaxWhitespace2OffsideRule none

def funOffsideRule : Rule :=
  offsidePop (fun | .Fun pos _ => some pos | _ => none)
    noSlack (some .End)

def functionOffsideRule : Rule :=
  offsidePop (fun | .Function pos => some pos | _ => none)
    noSlack none

def exceptionOffsideRule : Rule :=
  offsidePop (fun | .Exception pos => some pos | _ => none)
    isRelaxWhitespace2OffsideRule none

def interfaceHeadOffsideRule : Rule :=
  offsidePop (fun | .InterfaceHead pos => some pos | _ => none)
    (relaxedOr isInterfaceContinuator) none

def ifOffsideRule : Rule :=
  offsidePop (fun | .If pos => some pos | _ => none)
    (relaxedOr isIfBlockContinuator) none

def thenOffsideRule : Rule :=
  offsidePop (fun | .Then pos => some pos | _ => none)
    (relaxedOr isThenBlockContinuator) none

def elseOffsideRule : Rule :=
  offsidePop (fun | .Else pos => some pos | _ => none)
    isRelaxWhitespace2OffsideRule none

/- `keyword_offside_pops`. -/
def keywordOffsidePops : Rule :=
  firstOf
    [matchOffsideRule, tryOffsideRule, forOffsideRule, doOffsideRule,
      whileOffsideRule, whenOffsideRule, funOffsideRule,
      functionOffsideRule, exceptionOffsideRule,
      interfaceHeadOffsideRule, ifOffsideRule, thenOffsideRule,
      elseOffsideRule]

/- How far a clause may start left of its first one. -/
def clauseShift
    (token : TokenContent)
    (leadingBar : Bool) :
    Int :=
  match token == .Real .Bar, leadingBar with
  | true, true => 0
  | true, false => 2
  | false, true => -1
  | false, false => 1

def matchClausesOffsideRule : Rule := fun tt => do
  match ← head with
  | some (.MatchClauses leadingBar pos) =>
      if tt.token = .Real .SemiSemi ∨
          (tt.start.col : Int) + clauseShift tt.token leadingBar <
            (pos.col : Int) then
        popAndClose (some .End) tt
      else
        return .Pass tt
  | _ => return .Pass tt

/- A light `let` is closed by `;;`, a plain one is not. -/
def letDeclOffsideRule : Rule := fun tt => do
  match ← head with
  | some (.LetDecl blockLet pos) =>
      let slack := (relaxedOr isLetContinuator tt.token).toNat
      if (blockLet = true ∧ tt.token = .Real .SemiSemi) ∨
          tt.start.col + slack ≤ pos.col then
        popAndClose (if blockLet then some .DeclEnd else none) tt
      else
        return .Pass tt
  | _ => return .Pass tt

def withAsLetOffsideRule : Rule :=
  offsidePop (fun | .WithAsLet pos => some pos | _ => none)
    (relaxedOr isLetContinuator) (some .End)

def withAsAugmentOffsideRule : Rule :=
  offsidePop (fun | .WithAsAugment pos => some pos | _ => none)
    (relaxedOr isWithAugmentBlockContinuator) (some .DeclEnd)

/- `clause_offside_pops`. -/
def clauseOffsidePops : Rule :=
  firstOf
    [matchClausesOffsideRule, letDeclOffsideRule,
      withAsLetOffsideRule, withAsAugmentOffsideRule]

/- `end_balances_augment`. -/
def endBalancesAugment : Rule := fun tt => do
  match ← head with
  | some (.WithAsAugment pos) =>
      if tt.token = .Real .End ∧ pos.col < tt.start.col + 1 then
        let _ ← popCtxt
        delayDummy tt .End
        setLastRealEnd tt.span.stop
        return .Emit (tt.asVirtual .End)
      else
        return .Pass tt
  | _ => return .Pass tt

def typeDefnsOffsideRule : Rule :=
  offsidePop (fun | .TypeDefns pos _ => some pos | _ => none)
    (relaxedOr isTypeContinuator) none

/- `;;` closes a nested module only. -/
def moduleBodyOffsideRule : Rule := fun tt => do
  match ← head with
  | some (.ModuleBody pos wholeFile) =>
      let slack := (isRelaxWhitespace2OffsideRule tt.token).toNat
      if (wholeFile = false ∧ tt.token = .Real .SemiSemi) ∨
          tt.start.col + slack ≤ pos.col then
        popAndClose none tt
      else
        return .Pass tt
  | _ => return .Pass tt

/- `;;` never closes a namespace, and only `namespace` is strict. -/
def namespaceBodyOffsideRule : Rule := fun tt => do
  match ← head with
  | some (.NamespaceBody pos) =>
      let isContinuator := tt.token != .Real .Namespace
      let slack := isContinuator ||
        isRelaxWhitespace2OffsideRule tt.token
      if tt.start.col + slack.toNat ≤ pos.col then
        popAndClose none tt
      else
        return .Pass tt
  | _ => return .Pass tt

/- A member body closed by `;;` inserts nothing. -/
def memberBodyOffsideRule : Rule := fun tt => do
  match ← head with
  | some (.MemberBody pos) =>
      if tt.token = .Real .SemiSemi then
        popAndClose none tt
      else if tt.start.col ≤ pos.col then
        popAndClose (some .DeclEnd) tt
      else
        return .Pass tt
  | _ => return .Pass tt

def memberHeadOffsideRule : Rule :=
  offsidePop (fun | .MemberHead pos => some pos | _ => none)
    isRelaxWhitespace2OffsideRule none

/- `decl_offside_pops`. -/
def declOffsidePops : Rule :=
  firstOf
    [typeDefnsOffsideRule, moduleBodyOffsideRule,
      namespaceBodyOffsideRule, memberBodyOffsideRule,
      memberHeadOffsideRule]

end LexFilter

end Borzoi
