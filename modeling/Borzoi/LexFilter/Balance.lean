import Borzoi.LexFilter.Continuators

/-
  How tokens balance the contexts of the offside stack.
-/

namespace Borzoi

namespace LexFilter

open Lexer

/- Below a plain token, only blocks and loops up to a brace. -/
def joinInScan
    (stack : List Context) :
    Bool :=
  match stack with
  | .SeqBlock _ _ _ :: rest => joinInScan rest
  | .Do _ :: rest => joinInScan rest
  | .For _ _ :: rest => joinInScan rest
  | .Paren _ .Brace :: _ => true
  | _ => false

/- `detect_join_in_ctxt`. -/
def detectJoinInCtxt
    (stack : List Context) :
    Bool :=
  match stack with
  | .Vanilla _ _ :: rest => joinInScan rest
  | _ => false

/- The closing tokens of an opener. -/
def closingTokens
    (opener : Opener) :
    List Token :=
  match opener with
  | .Paren => [.RParen]
  | .Brace => [.RBrace]
  | .Brack => [.RBrack]
  | .BrackBar => [.BarRBrack]
  | .BraceBar => [.BarRBrace]
  | .Begin | .Sig | .Class | .Struct | .Interface => [.End]
  | .Quote => [.RQuote]
  | .QuoteRaw => [.RQuoteRaw]
  | .TyparAngle => [.Greater true]
  | .InterpFill =>
      [.InterpString (.End false), .InterpString (.End true),
        .InterpString .Part]

/- The tokens that balance a context on its own. -/
def balancingTokens
    (ctxt : Context) :
    List Token :=
  match ctxt with
  | .LetDecl _ _ | .For _ _ => [.In]
  | .If _ => [.Else, .Elif]
  | .Do _ => [.Done]
  | .Match _ | .Exception _ | .TypeDefns _ _ | .MemberHead _
  | .MemberBody _ | .InterfaceHead _ => [.With]
  | .Try _ => [.With, .Finally]
  | .Paren _ opener => closingTokens opener
  | .WithAsAugment _ => [.End]
  | _ => []

/- `with` in a record or object expression. -/
def withInBraceBlock
    (stack : List Context) :
    Bool :=
  match stack with
  | .SeqBlock _ _ _ :: .Paren _ .Brace :: _ => true
  | .SeqBlock _ _ _ :: .Paren _ .BraceBar :: _ => true
  | _ => false

/- The top-level block `;;` does not close. -/
def topLevelBlock
    (stack : List Context) :
    Bool :=
  match stack with
  | .SeqBlock _ _ _ :: .NamespaceBody _ :: _ => true
  | .SeqBlock _ _ _ :: .ModuleBody _ true :: _ => true
  | _ => false

/- `token_balances_head_context`. -/
def tokenBalancesHeadContext
    (token : TokenContent)
    (stack : List Context) :
    Bool :=
  (token == .Real .With && withInBraceBlock stack) ||
    (token == .Real .SemiSemi && topLevelBlock stack) ||
    (token == .Real .In && detectJoinInCtxt stack) ||
    match stack with
    | [] => false
    | head :: _ => token.isAnyOf (balancingTokens head)

/- `suffix_exists_balances`. -/
def suffixExistsBalances
    (token : TokenContent)
    (stack : List Context) :
    Bool :=
  match stack with
  | [] => false
  | _ :: rest =>
      tokenBalancesHeadContext token rest ||
        suffixExistsBalances token rest

/- The closers that may force contexts shut. -/
def forcingTokens : List Token :=
  [.In, .Else, .Elif, .Done, .Finally, .RParen, .RBrace, .RBrack,
    .BarRBrack, .BarRBrace, .End, .RQuote, .RQuoteRaw,
    .InterpString (.End false), .InterpString (.End true),
    .InterpString .Part, .With, .Greater true]

/- `token_forces_head_context_closure`. -/
def tokenForcesHeadContextClosure
    (token : TokenContent)
    (stack : List Context) :
    Bool :=
  if stack.isEmpty then
    false
  else if token = .Eof then
    true
  else if token.isAnyOf forcingTokens then
    !tokenBalancesHeadContext token stack &&
      suffixExistsBalances token stack
  else if token = .Real .SemiSemi then
    !tokenBalancesHeadContext token stack
  else
    false

/- `end_token_for_a_ctxt`. -/
def endTokenForACtxt
    (ctxt : Context) :
    Option Virtual :=
  match ctxt with
  | .SeqBlock _ _ .Yes => some .BlockEnd
  | .SeqBlock _ _ .OneSided => some .RightBlockEnd
  | .SeqBlock _ _ .No => none
  | .LetDecl true _ => some .DeclEnd
  | .LetDecl false _ => none
  | .Do _ => some .DeclEnd
  | .For _ _ => none
  | .Fun _ _ => some .End
  | .MatchClauses _ _ => some .End
  | .WithAsLet _ => some .End
  | .If _ | .Then _ | .Else _ | .While _ _ | .Match _ | .When _
  | .Vanilla _ _ | .Paren _ _ | .Try _ | .Function _ | .Exception _
  | .InterfaceHead _ => none
  | .ModuleHead _ _ _ true => some .BlockSep
  | .ModuleHead _ _ _ false | .NamespaceHead _ _ | .NamespaceBody _
  | .ModuleBody _ _ | .TypeDefns _ _ => none
  | .MemberHead _ | .MemberBody _ => none
  | .WithAsAugment _ => some .DeclEnd

/- Whether a context is a `MemberBody`. -/
def Context.isMemberBody
    (ctxt : Context) :
    Bool :=
  match ctxt with
  | .MemberBody _ => true
  | _ => false

/- Whether a context is a `Paren` of the given opener. -/
def Context.isParenOf
    (opener : Opener)
    (ctxt : Context) :
    Bool :=
  match ctxt with
  | .Paren _ opener' => opener' == opener
  | _ => false

/- `there_is_a_ctxt_member_body_on_the_stack_and_we_should_pop`. -/
def thereIsACtxtMemberBodyOnTheStackAndWeShouldPop
    (stack : List Context) :
    Bool :=
  stack.any Context.isMemberBody &&
    !stack.any (Context.isParenOf .Brace) &&
    decide ((stack.filter (Context.isParenOf .Paren)).length < 2)

end LexFilter

end Borzoi
