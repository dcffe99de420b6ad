import Borzoi.LexFilter.Rules.OffsidePops

/-
  Rules that push contexts for declarations and expressions.
-/

namespace Borzoi

namespace LexFilter

open Lexer
open FilterM

def namespaceRule : Rule := fun tt => do
  if tt.token = .Real .Namespace then
    pushCtxt tt.span (.NamespaceHead tt.start .Keyword)
    return .Emit tt
  else
    return .Pass tt

/- The stack is one top-level block. -/
def isTopLevel
    (stack : List Context) :
    Bool :=
  match stack with
  | [.SeqBlock _ _ _] => true
  | _ => false

/- `module` is swallowed. -/
def moduleRule : Rule := fun tt => do
  if tt.token = .Real .Module then
    checkInvalidDeclInTypeDefn .Module tt
    let nested := !isTopLevel (← offsideStack)
    pushCtxt tt.span (.ModuleHead tt.start .Module false nested)
    setLastRealEnd tt.span.stop
    return .Restart
  else
    return .Pass tt

/- `type` is swallowed. -/
def typeRule : Rule := fun tt => do
  if tt.token = .Real .TypeKw then
    checkInvalidDeclInTypeDefn .TypeKw tt
    pushCtxt tt.span (.TypeDefns tt.start none)
    setLastRealEnd tt.span.stop
    return .Restart
  else
    return .Pass tt

/- `module_type_pushes`. -/
def moduleTypePushes : Rule :=
  firstOf [namespaceRule, moduleRule, typeRule]

/- `let` in a member head turns it into a binding. -/
def memberLetRule : Rule := fun tt => do
  match ← head with
  | some (.MemberHead headPos) =>
      if tt.token.isAnyOf [.Let, .Use] then
        replaceCtxt tt.span (.LetDecl true headPos)
        return .Emit (tt.asVirtual .Let)
      else
        return .Pass tt
  | _ => return .Pass tt

/- Whether a `let` under this head is light. -/
def isBlockLet
    (head : Option Context) :
    Bool :=
  match head with
  | some (.SeqBlock _ _ _) => true
  | some (.MatchClauses _ _) => true
  | _ => false

def letRule : Rule := fun tt => do
  if tt.token.isAnyOf [.Let, .Use] then
    let blockLet := isBlockLet (← head)
    pushCtxt tt.span (.LetDecl blockLet tt.start)
    if blockLet then
      return .Emit (tt.asVirtual .Let)
    else
      return .Emit tt
  else
    return .Pass tt

/- Whether the head is a block. -/
def isSeqBlock
    (head : Option Context) :
    Bool :=
  match head with
  | some (.SeqBlock _ _ _) => true
  | _ => false

def letBangRule : Rule := fun tt => do
  if tt.token.isAnyOf [.LetBang, .UseBang, .AndBang] then
    let blockLet := isSeqBlock (← head)
    let virt :=
      if tt.token = .Real .AndBang then Virtual.AndBang else .Binder
    pushCtxt tt.span (.LetDecl blockLet tt.start)
    if blockLet then
      return .Emit (tt.asVirtual virt)
    else
      return .Emit tt
  else
    return .Pass tt

/- The keywords that start a member. -/
def memberKeywords : List Token :=
  [.Val, .Static, .Abstract, .Member, .Override, .Default]

/-
  Unwind the stack to the nearest `MemberBody`, queueing the closing
  virtuals of the contexts above it.
-/
def memberCascade
    (tt : TokenTup)
    (stack : List Context) :
    FilterM Unit := do
  match stack with
  | [] => panic .CascadeWithoutMemberBody
  | ctxt :: rest =>
      if ctxt.isMemberBody then
        let _ ← popCtxt
        return ()
      else
        let _ ← popCtxt
        match endTokenForACtxt ctxt with
        | some virt => delayTokenNoProcessing (tt.asVirtual virt)
        | none => pure ()
        memberCascade tt rest

def memberCascadeRule : Rule := fun tt => do
  let stack ← offsideStack
  if tt.token.isAnyOf memberKeywords &&
      thereIsACtxtMemberBodyOnTheStackAndWeShouldPop stack then
    delayTokenNoProcessing tt
    memberCascade tt stack
    return .Restart
  else
    return .Pass tt

/- Whether the head is a `MemberHead`. -/
def isMemberHead
    (head : Option Context) :
    Bool :=
  match head with
  | some (.MemberHead _) => true
  | _ => false

def memberRule : Rule := fun tt => do
  if tt.token.isAnyOf memberKeywords && !isMemberHead (← head) then
    pushCtxt tt.span (.MemberHead tt.start)
    return .Emit tt
  else
    return .Pass tt

/- The next token is the given one. -/
def nextTokenIs
    (token : Token) :
    FilterM Bool := do
  match ← peekNextTokenTup with
  | none => return false
  | some next => return next.token == .Real token

/- An access modifier in front of `new`. -/
def accessNewRule : Rule := fun tt => do
  if tt.token.isAnyOf [.Public, .Private, .Internal] then
    if ← nextTokenIs .New then
      pushCtxt tt.span (.MemberHead tt.start)
      return .Emit tt
    else
      return .Pass tt
  else
    return .Pass tt

/- `new (`. -/
def newRule : Rule := fun tt => do
  if tt.token = .Real .New then
    if (← nextTokenIs .LParen) && !isMemberHead (← head) then
      pushCtxt tt.span (.MemberHead tt.start)
      return .Emit tt
    else
      return .Pass tt
  else
    return .Pass tt

/- `binding_member_pushes`. -/
def bindingMemberPushes : Rule :=
  firstOf
    [memberLetRule, letRule, letBangRule, memberCascadeRule,
      memberRule, accessNewRule, newRule]

/- Push the block a token introduces and emit the token. -/
def pushBlockAndEmit
    (addBlockEnd : AddBlockEnd)
    (tt emitted : TokenTup) :
    FilterM Step := do
  pushCtxtSeqBlock tt addBlockEnd
  return .Emit emitted

/- A block that is closed only when control flow or a new line follows. -/
def pushBlockIfNeeded : Rule := fun tt => do
  if ← isControlFlowOrNotSameLine tt then
    pushBlockAndEmit .Yes tt tt
  else
    pushBlockAndEmit .No tt tt

/- The binding of a record or property field. -/
def isFieldBinding
    (stack : List Context) :
    Bool :=
  match stack with
  | .Vanilla _ true :: .SeqBlock _ _ _ :: .WithAsLet _ :: _ => true
  | .Vanilla _ true :: .SeqBlock _ _ _ :: .Paren _ .Brace :: _ => true
  | .Vanilla _ true :: .SeqBlock _ _ _ :: .Paren _ .BraceBar :: _ =>
      true
  | _ => false

/- `=` under the contexts that expect one. -/
def equalsStep : Rule := fun tt => do
  let stack ← offsideStack
  match stack.head? with
  | some (.LetDecl _ _) => pushBlockAndEmit .Yes tt tt
  | some (.TypeDefns pos _) =>
      let _ ← popCtxt
      let _ ← tryPushCtxt .AlwaysLenient true false tt.span
        (.TypeDefns pos (some tt.stop))
      pushBlockAndEmit .Yes tt tt
  | some (.WithAsLet _) => pushBlockIfNeeded tt
  | some (.MemberHead pos) =>
      replaceCtxt tt.span (.MemberBody pos)
      pushBlockAndEmit .Yes tt tt
  | _ =>
      if isFieldBinding stack then
        pushBlockIfNeeded tt
      else
        return .Pass tt

/- `equals_pushes`. -/
def equalsPushes : Rule := fun tt =>
  if tt.token = .Real .Equals then
    equalsStep tt
  else
    return .Pass tt

def lazyAssertRule : Rule := fun tt => do
  if tt.token.isAnyOf [.Lazy, .Assert] then
    if ← isControlFlowOrNotSameLine tt then
      let virt :=
        if tt.token = .Real .Assert then Virtual.Assert else .Lazy
      pushBlockAndEmit .Yes tt (tt.asVirtual virt)
    else
      return .Pass tt
  else
    return .Pass tt

def larrowRule : Rule := fun tt => do
  if tt.token = .Real .LArrow then
    if ← isControlFlowOrNotSameLine tt then
      pushBlockAndEmit .Yes tt tt
    else
      return .Pass tt
  else
    return .Pass tt

def forRule : Rule := fun tt => do
  if tt.token = .Real .For then
    pushCtxt tt.span (.For tt.start (← core .parenDepth))
    return .Emit tt
  else
    return .Pass tt

def whileRule : Rule := fun tt => do
  if tt.token = .Real .While then
    pushCtxt tt.span (.While tt.start (← core .parenDepth))
    return .Emit tt
  else
    return .Pass tt

def funRule : Rule := fun tt => do
  if tt.token = .Real .Fun then
    pushCtxt tt.span (.Fun tt.start (← core .parenDepth))
    return .Emit (tt.asVirtual .Fun)
  else
    return .Pass tt

/- Push the clauses that start at the next token. -/
def pushMatchClauses
    (strictness : PushStrictness) :
    FilterM Unit := do
  match ← peekNextTokenTup with
  | none => return ()
  | some la =>
      let _ ← tryPushCtxt strictness false (la.token == .Eof) la.span
        (.MatchClauses (la.token == .Real .Bar) la.start)
      return ()

def functionRule : Rule := fun tt => do
  if tt.token = .Real .Function then
    pushCtxt tt.span (.Function tt.start)
    pushMatchClauses .AlwaysLenient
    return .Emit (tt.asVirtual .Function)
  else
    return .Pass tt

def exceptionRule : Rule := fun tt => do
  if tt.token = .Real .Exception then
    checkInvalidDeclInTypeDefn .Exception tt
    pushCtxt tt.span (.Exception tt.start)
    return .Emit tt
  else
    return .Pass tt

/- Whether `->` opens a body under this stack. -/
def rarrowShouldPush
    (parenDepth : Nat)
    (stack : List Context) :
    Bool :=
  match stack with
  | .Fun _ depth :: _ => parenDepth == depth
  | .For _ depth :: _ => parenDepth == depth
  | .While _ depth :: _ => parenDepth == depth
  | .MatchClauses _ _ :: _ => true
  | .When _ :: _ => true
  | .SeqBlock _ _ _ :: .MatchClauses _ _ :: _ => true
  | .SeqBlock _ _ _ :: .When _ :: _ => true
  | _ => false

def rarrowRule : Rule := fun tt => do
  if tt.token = .Real .RArrow then
    if rarrowShouldPush (← core .parenDepth) (← offsideStack) then
      pushBlockAndEmit .OneSided tt tt
    else
      return .Pass tt
  else
    return .Pass tt

def doRule : Rule := fun tt => do
  if tt.token.isAnyOf [.Do, .DoBang] then
    let virt :=
      if tt.token = .Real .DoBang then Virtual.DoBang else .Do
    pushCtxt tt.span (.Do tt.start)
    tryPushCtxtSeqBlock tt .Yes
    return .Emit (tt.asVirtual virt)
  else
    return .Pass tt

def thenRule : Rule := fun tt => do
  if tt.token = .Real .Then then
    pushCtxt tt.span (.Then tt.start)
    pushBlockAndEmit .Yes tt (tt.asVirtual .Then)
  else
    return .Pass tt

/- `else`, fused with an `if` on its line. -/
def elseRule : Rule := fun tt => do
  if tt.token = .Real .Else then
    let next ← peekNextTokenTup
    match next.filter fun next =>
        next.token == .Real .If && next.start.line == tt.start.line with
    | some next =>
        let _ ← popNextTokenTup
        pushCtxt tt.span (.If tt.start)
        return .Emit
          ⟨.Real .Elif, ⟨tt.span.start, next.span.stop⟩, tt.start,
            next.stop⟩
    | none =>
        pushCtxt tt.span (.Else tt.start)
        pushBlockAndEmit .Yes tt (tt.asVirtual .Else)
  else
    return .Pass tt

def ifRule : Rule := fun tt => do
  if tt.token.isAnyOf [.If, .Elif] then
    pushCtxt tt.span (.If tt.start)
    return .Emit tt
  else
    return .Pass tt

def matchRule : Rule := fun tt => do
  if tt.token.isAnyOf [.Match, .MatchBang] then
    pushCtxt tt.span (.Match tt.start)
    return .Emit tt
  else
    return .Pass tt

/- `expr_keyword_pushes`. -/
def exprKeywordPushes : Rule :=
  firstOf
    [lazyAssertRule, larrowRule, forRule, whileRule, funRule,
      functionRule, exceptionRule, rarrowRule, doRule, thenRule,
      elseRule, ifRule, matchRule]

------------------------------------------------------------
-- `with`
------------------------------------------------------------

/- `with` after `match` or `try`. -/
def withClausesStep : Rule := fun tt => do
  pushMatchClauses .VersionGated
  setLastRealEnd tt.span.stop
  return .Emit (tt.asVirtual .With)

/- The limit of a `with` under a declaration or a brace. -/
def withLimit
    (stack : List Context) :
    Option (Pos × Bool) :=
  match stack with
  | .TypeDefns pos _ :: _ => some (pos, false)
  | .MemberHead pos :: _ => some (pos, false)
  | .MemberBody pos :: _ => some (pos, false)
  | .Exception pos :: _ => some (pos, false)
  | .InterfaceHead pos :: _ => some (pos, true)
  | .SeqBlock _ pos _ :: .Paren _ .Brace :: _ => some (pos, false)
  | .SeqBlock _ pos _ :: .Paren _ .BraceBar :: _ => some (pos, false)
  | _ => none

/- The next token starts a binding. -/
def isBindingHeadClass
    (token : TokenContent) :
    Bool :=
  token.isIdent ||
    token.isAnyOf [.RBrace, .Public, .Private, .Internal, .Inline]

/- Whether the next token starts a long identifier up to `=`. -/
def isFollowedByLongIdentEquals : FilterM Bool := do
  match ← popNextTokenTup with
  | none => return false
  | some candidate =>
      let res ← isLongIdentEquals candidate.token
      delayToken candidate
      return res

/- `with` in front of bindings. -/
def withBindingStep
    (limPos : Pos)
    (la : TokenTup) :
    Rule := fun tt => do
  let offsidePos := if tt.stop.col < la.start.col then tt.start else limPos
  pushCtxt tt.span (.WithAsLet offsidePos)
  if ← isFollowedByLongIdentEquals then
    pushCtxtSeqBlock tt .No
  else
    pure ()
  setLastRealEnd tt.span.stop
  return .Emit (tt.asVirtual .With)

/- `with` in front of attributed accessors. -/
def withAttributeStep : Rule := fun tt => do
  pushCtxt tt.span (.WithAsLet tt.start)
  setLastRealEnd tt.span.stop
  return .Emit (tt.asVirtual .With)

/- `with` in front of members. -/
def withAugmentStep
    (limPos : Pos) :
    Rule := fun tt => do
  pushCtxt tt.span (.WithAsAugment limPos)
  pushBlockAndEmit .Yes tt tt

/- `with` under a declaration or a brace. -/
def withDeclStep
    (limPos : Pos)
    (isInterfaceHead : Bool) :
    Rule := fun tt => do
  match ← peekNextTokenTup with
  | none => withAugmentStep limPos tt
  | some la =>
      if isBindingHeadClass la.token then
        withBindingStep limPos la tt
      else if la.token = .Real .LBrackLess ∧
          la.start.line = tt.start.line then
        withAttributeStep tt
      else if isInterfaceHead = true ∧
          la.start.col ≤ limPos.col then
        return .Emit tt
      else
        withAugmentStep limPos tt

/- `with` elsewhere. -/
def withElsewhereStep : Rule := fun tt => do
  pushCtxt tt.span (.WithAsAugment tt.start)
  tryPushCtxtSeqBlock tt .Yes
  return .Emit tt

/- `with` by the shape of the stack. -/
def withStep : Rule := fun tt => do
  let stack ← offsideStack
  match stack.head? with
  | some (.Match _) => withClausesStep tt
  | some (.Try _) => withClausesStep tt
  | _ =>
      match withLimit stack with
      | some (limPos, isInterfaceHead) =>
          withDeclStep limPos isInterfaceHead tt
      | none => withElsewhereStep tt

/- `with_dispatch`. -/
def withDispatch : Rule := fun tt =>
  if tt.token = .Real .With then
    withStep tt
  else
    return .Pass tt

def finallyRule : Rule := fun tt => do
  match ← head with
  | some (.Try _) =>
      if tt.token = .Real .Finally then
        pushBlockAndEmit .Yes tt tt
      else
        return .Pass tt
  | _ => return .Pass tt

def whenRule : Rule := fun tt => do
  if tt.token = .Real .When ∧ isSeqBlock (← head) then
    pushCtxt tt.span (.When tt.start)
    return .Emit tt
  else
    return .Pass tt

def tryRule : Rule := fun tt => do
  if tt.token = .Real .Try then
    pushCtxt tt.span (.Try tt.start)
    pushBlockAndEmit .OneSided tt tt
  else
    return .Pass tt

/- `try_finally_when_pushes`. -/
def tryFinallyWhenPushes : Rule :=
  firstOf [finallyRule, whenRule, tryRule]

/- Push a paren context and its block. -/
def pushParen
    (pos : Pos)
    (opener : Opener)
    (addBlockEnd : AddBlockEnd)
    (tt : TokenTup) :
    FilterM Unit := do
  pushCtxt tt.span (.Paren pos opener)
  pushCtxtSeqBlock tt addBlockEnd
  let depth ← core .parenDepth
  core (.setParenDepth (depth + 1))

/- The block of a module or a type. -/
def inModuleOrTypeBlock
    (stack : List Context) :
    Bool :=
  match stack with
  | .SeqBlock _ _ _ :: .ModuleBody _ _ :: _ => true
  | .SeqBlock _ _ _ :: .TypeDefns _ _ :: _ => true
  | _ => false

def structRule : Rule := fun tt => do
  if tt.token = .Real .Struct ∧
      inModuleOrTypeBlock (← offsideStack) then
    pushParen tt.start .Struct .No tt
    return .Emit tt
  else
    return .Pass tt

/- The type whose block an `interface` may open. -/
def interfaceType
    (tt : TokenTup)
    (stack : List Context) :
    Option (Pos × Pos) :=
  match stack with
  | .SeqBlock _ seqPos _ :: .TypeDefns typePos (some equalsEnd) :: _ =>
      if seqPos = tt.start then some (typePos, equalsEnd) else none
  | _ => none

/- What follows `interface ... end`. -/
def interfaceOpensBlock
    (typePos equalsEnd : Pos)
    (tt la : TokenTup) :
    Bool :=
  let limitCol :=
    if tt.stop.line = equalsEnd.line then typePos.col else tt.start.col
  if la.token = .Real .End then
    typePos.col ≤ la.start.col
  else if la.token.isAnyOf
      [.Default, .Override, .Interface, .New, .TypeKw, .Static,
        .Member, .Abstract, .Inherit, .LBrackLess] then
    limitCol < la.start.col
  else
    false

def interfaceBlockRule : Rule := fun tt => do
  if tt.token = .Real .Interface then
    match interfaceType tt (← offsideStack) with
    | none => return .Pass tt
    | some (typePos, equalsEnd) =>
        match ← peekNextTokenTup with
        | none => return .Pass tt
        | some la =>
            if interfaceOpensBlock typePos equalsEnd tt la then
              pushParen tt.start .Interface .Yes tt
              return .Emit tt
            else
              return .Pass tt
  else
    return .Pass tt

def interfaceHeadRule : Rule := fun tt => do
  if tt.token = .Real .Interface then
    pushCtxt tt.span (.InterfaceHead tt.start)
    setLastRealEnd tt.span.stop
    return .Emit (tt.asVirtual .InterfaceMember)
  else
    return .Pass tt

/- `struct_interface_pushes`. -/
def structInterfacePushes : Rule :=
  firstOf [structRule, interfaceBlockRule, interfaceHeadRule]

/- `infix_rhs_on_next_line`. -/
def infixRhsOnNextLine
    (tt : TokenTup) :
    FilterM Bool := do
  match ← peekNextTokenTup with
  | some next => return next.start.line != tt.start.line
  | none => return true

/- Whether the head is a `MatchClauses`. -/
def isMatchClauses
    (head : Option Context) :
    Bool :=
  match head with
  | some (.MatchClauses _ _) => true
  | _ => false

/- `infix_rhs_pushes`. -/
def infixRhsPushes : Rule := fun tt => do
  if tokenIsInfix tt.token && !isMatchClauses (← head) then
    if ← infixRhsOnNextLine tt then
      pushBlockAndEmit .No tt tt
    else
      return .Pass tt
  else
    return .Pass tt

end LexFilter

end Borzoi
