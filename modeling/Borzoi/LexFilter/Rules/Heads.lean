import Borzoi.LexFilter.Balance
import Borzoi.LexFilter.Typars

/-
  The first rules of an iteration: pass-through tokens, token splits,
  high-precedence applications, forced closure, and the transitions
  of namespace and module heads.
-/

namespace Borzoi

namespace LexFilter

open Lexer
open FilterM

/- A rule decides a token or passes it on. -/
abbrev Rule := TokenTup → FilterM Step

/- Try rules in order until one decides. -/
def firstOf
    (rules : List Rule) :
    Rule := fun tt =>
  match rules with
  | [] => return .Pass tt
  | rule :: rest => do
      match ← rule tt with
      | .Pass tt => firstOf rest tt
      | step => return step

/- Tokens the member cascade queued are emitted as they are. -/
def passThroughRule : Rule := fun tt => do
  let count ← core .tokensThatNeedNoProcessing
  if 0 < count then
    core (.setTokensThatNeedNoProcessing (count - 1))
    match tt.token with
    | .Real _ => setLastRealEnd tt.span.stop
    | _ => pure ()
    return .Emit tt
  else
    return .Pass tt

/- Put back two tokens so that `first` comes out first. -/
def restartWithPair
    (first second : TokenTup) :
    FilterM Step := do
  delayToken second
  delayToken first
  return .Restart

/- `@>.` and `@@>.`: a quotation closer glued to a dot. -/
def splitQuoteDot
    (tt : TokenTup)
    (close : Token) :
    FilterM Step := do
  let closeEndByte ← sub tt.span.stop 1
  let closeEndCol ← sub tt.stop.col 1
  restartWithPair
    ⟨.Real close, ⟨tt.span.start, closeEndByte⟩, tt.start,
      ⟨tt.stop.line, closeEndCol⟩⟩
    ⟨.Real .Dot, ⟨closeEndByte, tt.span.stop⟩,
      ⟨tt.start.line, closeEndCol⟩, tt.stop⟩

/-
  `@>|}` and `@@>|}`: a quotation closer glued to `|}`.  The suffix
  starts one byte into the token, so the two spans overlap.
-/
def splitQuoteBar
    (tt : TokenTup)
    (close : Token) :
    FilterM Step := do
  let closeEndByte ← sub tt.span.stop 2
  let closeEndCol ← sub tt.stop.col 2
  restartWithPair
    ⟨.Real close, ⟨tt.span.start, closeEndByte⟩, tt.start,
      ⟨tt.stop.line, closeEndCol⟩⟩
    ⟨.Real .BarRBrace, ⟨tt.span.start + 1, tt.span.stop⟩,
      ⟨tt.start.line, tt.start.col + 1⟩, tt.stop⟩

/- `1..`: an integer glued to a range operator. -/
def splitIntDotDot
    (tt : TokenTup)
    (text : List Char) :
    FilterM Step := do
  let intLength ← sub text.length 2
  let splitByte ← sub tt.span.stop 2
  let splitCol ← sub tt.stop.col 2
  restartWithPair
    ⟨.Real (.Int (text.take intLength)),
      ⟨tt.span.start, splitByte⟩, tt.start, ⟨tt.stop.line, splitCol⟩⟩
    ⟨.Real .DotDot, ⟨splitByte, tt.span.stop⟩,
      ⟨tt.stop.line, splitCol⟩, tt.stop⟩

/- The bytes that keep `..^` one operator. -/
def operatorBytes : List UInt8 :=
  [33, 36, 37, 38, 42, 43, 45, 46, 47, 60, 61, 62, 63, 64, 94, 124,
    126, 58]

/- `..^` that no operator byte follows. -/
def splitDotDotHat
    (tt : TokenTup) :
    FilterM Step := do
  let splitByte ← sub tt.span.stop 1
  let splitCol ← sub tt.stop.col 1
  restartWithPair
    ⟨.Real .DotDot, ⟨tt.span.start, splitByte⟩, tt.start,
      ⟨tt.stop.line, splitCol⟩⟩
    ⟨.Real (.Op "^".toList), ⟨splitByte, tt.span.stop⟩,
      ⟨tt.stop.line, splitCol⟩, tt.stop⟩

/- Cut the glued tokens. -/
def splitRule : Rule := fun tt => do
  match tt.token with
  | .Real .RQuoteDot => splitQuoteDot tt .RQuote
  | .Real .RQuoteRawDot => splitQuoteDot tt .RQuoteRaw
  | .Real .RQuoteBarRBrace => splitQuoteBar tt .RQuote
  | .Real .RQuoteRawBarRBrace => splitQuoteBar tt .RQuoteRaw
  | .Real (.IntDotDot text) => splitIntDotDot tt text
  | .Real .DotDotHat =>
      match ← core (.sourceByte tt.span.stop) with
      | none => splitDotDotHat tt
      | some b =>
          if operatorBytes.contains b then
            return .Pass tt
          else
            splitDotDotHat tt
  | _ => return .Pass tt

/- Queue an application virtual between `tt` and the next token. -/
def restartWithApp
    (virt : Virtual)
    (tt : TokenTup) :
    FilterM Step := do
  let next ← expect (← peekNextTokenTup)
  delayToken (next.asVirtual virt)
  delayToken tt
  return .Restart

/- `f(` and `f[`. -/
def highPrecedenceAppRule : Rule := fun tt => do
  if tt.token.isIdent then
    if ← nextTokenIsAdjacentLbrack tt then
      restartWithApp .HighPrecedenceBrackApp tt
    else if ← nextTokenIsAdjacentLparen tt then
      restartWithApp .HighPrecedenceParenApp tt
    else
      return .Pass tt
  else
    return .Pass tt

/- Pop the head and insert its closing virtual, if it has one. -/
def popAndClose
    (closing : Option Virtual)
    (tt : TokenTup) :
    FilterM Step := do
  let _ ← popCtxt
  match closing with
  | some virt => return .Emit (← insertToken virt tt)
  | none =>
      delayToken tt
      return .Restart

/- A closer that balances something below forces the head shut. -/
def forceClosureRule : Rule := fun tt => do
  let stack ← offsideStack
  if tokenForcesHeadContextClosure tt.token stack then
    let ctxt ← expect stack.head?
    popAndClose (endTokenForACtxt ctxt) tt
  else
    return .Pass tt

/- `;;` on an empty stack ends the interaction. -/
def semiSemiResetRule : Rule := fun tt => do
  let stack ← offsideStack
  if tt.token = .Real .SemiSemi ∧ stack = [] then
    core (.setInitialized false)
    setLastRealEnd tt.span.stop
    return .Emit tt
  else
    return .Pass tt

/- `predispatch`. -/
def predispatch : Rule :=
  firstOf
    [passThroughRule, splitRule, highPrecedenceAppRule,
      forceClosureRule, semiSemiResetRule]

/- `join_in_rewrite`. -/
def joinInRewrite : Rule := fun tt => do
  let stack ← offsideStack
  if tt.token = .Real .In ∧ detectJoinInCtxt stack then
    setLastRealEnd tt.span.stop
    return .Emit (tt.asVirtual .JoinIn)
  else
    return .Pass tt

/- Replace the head of the stack. -/
def replaceCtxt
    (trigger : Span)
    (ctxt : Context) :
    FilterM Unit := do
  let _ ← popCtxt
  pushCtxt trigger ctxt

/- A token that continues a namespace head. -/
def namespaceHeadContinues
    (prev : NamespacePrev)
    (tt : TokenTup) :
    Bool :=
  match prev with
  | .Keyword => tt.token.isIdent || tt.token.isAnyOf [.Rec, .Global]
  | .Ident => tt.token == .Real .Dot

/- The head of a namespace. -/
def namespaceHeadRule : Rule := fun tt => do
  match ← head with
  | some (.NamespaceHead headPos prev) =>
      if namespaceHeadContinues prev tt && headPos.col < tt.start.col then
        let newPrev := if tt.token.isIdent then .Ident else .Keyword
        replaceCtxt tt.span (.NamespaceHead headPos newPrev)
        return .Emit tt
      else
        let _ ← popCtxt
        delayToken tt
        pushCtxt tt.span (.NamespaceBody headPos)
        pushCtxtSeqBlockAt .AlwaysLenient false tt .Yes
        return .RestartWithoutBlockRule
  | _ => return .Pass tt

/- Attributes inside a module head. -/
def moduleAttributeStep
    (headPos : Pos)
    (prev : ModuleHeadPrev)
    (nested : Bool) :
    Rule := fun tt => do
  if tt.token = .Real .GreaterRBrack then
    replaceCtxt tt.span (.ModuleHead headPos prev false nested)
    return .Emit tt
  else if tt.token.isAnyOf [.RParen, .RBrace] then
    setLastRealEnd tt.span.stop
    return .Restart
  else
    return .Emit tt

/- A token that continues the path of a module head. -/
def moduleHeadContinues
    (prev : ModuleHeadPrev)
    (tt : TokenTup) :
    Bool :=
  match prev with
  | .Module => tt.token.isIdent || tt.token.isAnyOf [.Global, .Rec]
  | .RecOrDot => tt.token.isIdent || tt.token.isAnyOf [.Rec]
  | .Ident => tt.token == .Real .Dot
  | .Global => false

/- What the path of a module head ends in after a token. -/
def moduleHeadPrevAfter
    (tt : TokenTup) :
    ModuleHeadPrev :=
  if tt.token = .Real .Global then .Global
  else if tt.token.isIdent then .Ident
  else .RecOrDot

/- A module head that a foreign token ends. -/
def endModuleHead
    (headPos : Pos) :
    Rule := fun tt => do
  let _ ← popCtxt
  match ← offsideStack with
  | [.SeqBlock _ _ _] =>
      delayToken tt
      pushCtxt tt.span (.ModuleBody headPos true)
      pushCtxtSeqBlock tt .Yes
      return .RestartWithoutBlockRule
  | _ => return .Emit (← insertTokenFromPrevToCurrent .BlockSep tt)

/- The head of a module, outside its attributes. -/
def moduleHeadStep
    (headPos : Pos)
    (prev : ModuleHeadPrev)
    (nested : Bool) :
    Rule := fun tt => do
  let headColLt := decide (headPos.col < tt.start.col)
  if tt.token.isAnyOf [.Equals, .Colon] then
    replaceCtxt tt.span (.ModuleBody headPos false)
    pushCtxtSeqBlock tt .Yes
    return .Emit tt
  else if prev = .Module ∧ headColLt ∧
      tt.token.isAnyOf [.Public, .Private, .Internal] then
    return .Emit tt
  else if prev = .Module ∧ headColLt ∧
      tt.token = .Real .LBrackLess then
    replaceCtxt tt.span (.ModuleHead headPos prev true nested)
    return .Emit tt
  else if moduleHeadContinues prev tt && headColLt then
    replaceCtxt tt.span
      (.ModuleHead headPos (moduleHeadPrevAfter tt) false nested)
    return .Emit tt
  else
    endModuleHead headPos tt

/- The head of a module. -/
def moduleHeadRule : Rule := fun tt => do
  match ← head with
  | some (.ModuleHead headPos prev attrs nested) =>
      if attrs && headPos.col < tt.start.col then
        moduleAttributeStep headPos prev nested tt
      else
        moduleHeadStep headPos prev nested tt
  | _ => return .Pass tt

/- `head_transitions`. -/
def headTransitions : Rule :=
  firstOf [namespaceHeadRule, moduleHeadRule]

end LexFilter

end Borzoi
