import Borzoi.LexFilter.Syntax

/-
  Token classes the offside rules read.

  A `Dummy` stands for the token it was queued behind, so every class
  looks through it.
-/

namespace Borzoi

namespace LexFilter

open Lexer

/- The content with a `Dummy` replaced by its inner token. -/
def TokenContent.underlying
    (content : TokenContent) :
    TokenContent :=
  match content with
  | .Dummy _ inner => .Real inner
  | _ => content

/- The virtuals that close a block or a declaration. -/
def blockClosers : List Virtual :=
  [.BlockEnd, .RightBlockEnd, .DeclEnd]

/- A class given by its raw and its virtual members. -/
def continuator
    (tokens : List Token)
    (virtuals : List Virtual)
    (content : TokenContent) :
    Bool :=
  match content.underlying with
  | .Real token => tokens.contains token
  | .Virtual virt => virtuals.contains virt
  | _ => false

def isLetContinuator : TokenContent → Bool :=
  continuator [.And] blockClosers

def isTypeContinuator : TokenContent → Bool :=
  continuator [.And, .Bar, .End, .With, .RBrace] blockClosers

def isTypeSeqBlockElementContinuator : TokenContent → Bool :=
  continuator [.Bar] (.BlockBegin :: blockClosers)

def isIfBlockContinuator : TokenContent → Bool :=
  continuator [.Then, .Else, .Elif, .End] blockClosers

def isThenBlockContinuator : TokenContent → Bool :=
  continuator [] blockClosers

def isWhileBlockContinuator : TokenContent → Bool :=
  continuator [.Done] blockClosers

def isForLoopContinuator : TokenContent → Bool :=
  continuator [.Done] blockClosers

def isMatchBlockContinuator : TokenContent → Bool :=
  continuator [.With] blockClosers

def isTryBlockContinuator : TokenContent → Bool :=
  continuator [.With, .Finally] blockClosers

def isDoContinuator : TokenContent → Bool :=
  continuator [.Done] blockClosers

def isWithAugmentBlockContinuator : TokenContent → Bool :=
  continuator [.End] []

def isInterfaceContinuator : TokenContent → Bool :=
  continuator [.End] blockClosers

/- `op_str_is_infix`: read past `.` and `?`, then look at the head. -/
def opStrIsInfix
    (s : List Char) :
    Bool :=
  if s = "%".toList ∨ s = "%%".toList then
    false
  else
    match s.dropWhile fun c => c == '.' || c == '?' with
    | [] => false
    | c :: rest =>
        if c = '!' then rest.head? == some '='
        else if c = '~' then false
        else true

/- `token_is_infix`. -/
def tokenIsInfix
    (content : TokenContent) :
    Bool :=
  match content.underlying with
  | .Real (.Op s) => opStrIsInfix s
  | .Real token =>
      [Token.Comma, .BarBar, .AmpAmp, .Amp, .Or, .Mod, .ColonColon,
        .ColonGreater, .ColonQMarkGreater, .ColonEquals, .QMarkQMark,
        .Dollar].contains token
  | _ => false

/- `infix_token_length`. -/
def infixTokenLength
    (content : TokenContent) :
    Nat :=
  match content.underlying with
  | .Real (.Op s) => s.length
  | .Real token =>
      if [Token.BarBar, .AmpAmp, .ColonColon, .ColonGreater,
          .ColonEquals, .QMarkQMark].contains token then
        2
      else if [Token.ColonQMarkGreater, .Mod].contains token then
        3
      else
        1
  | _ => 1

/- `is_adjacent_prefix_capable_op`. -/
def isAdjacentPrefixCapableOp
    (content : TokenContent) :
    Bool :=
  match content.underlying with
  | .Real (.Op s) =>
      ["+".toList, "-".toList, "+.".toList, "-.".toList].contains s
  | .Real token => [Token.Amp, .AmpAmp].contains token
  | _ => false

/- `is_seq_block_element_continuator`. -/
def isSeqBlockElementContinuator
    (content : TokenContent) :
    Bool :=
  tokenIsInfix content ||
    continuator
      [.End, .And, .With, .Then, .RParen, .RBrace, .RBrack,
        .BarRBrack, .BarRBrace, .RQuote, .RQuoteRaw]
      blockClosers content

/- `is_relax_whitespace2_offside_rule`: on queued closers only. -/
def isRelaxWhitespace2OffsideRule
    (content : TokenContent) :
    Bool :=
  match content with
  | .Dummy _ inner =>
      [Token.End, .RParen, .RBrace, .BarRBrace, .RBrack, .BarRBrack,
        .RQuote, .RQuoteRaw, .Greater true].contains inner
  | _ => false

/- `is_atomic_expr_end`. -/
def isAtomicExprEnd
    (token : Token) :
    Bool :=
  match token with
  | .Ident _ | .QuotedIdent _ | .Int _ | .XInt _ | .IntSuffixed _
  | .XIntSuffixed _ | .Float64 _ | .Float32 _ | .XIEEE64 _
  | .XIEEE32 _ | .Decimal _ | .BigNum _ | .String | .VerbatimString
  | .TripleString | .Char _ | .RParen | .RBrack | .RBrace
  | .BarRBrace | .BarRBrack | .End | .Null | .False | .True
  | .Underscore => true
  | _ => false

end LexFilter

end Borzoi
