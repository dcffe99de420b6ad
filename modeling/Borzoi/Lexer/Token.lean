import Mathlib.Data.List.Basic

/-
  The raw tokens of the lexer.

  A token borrows its text from the source.  The model keeps the
  text only where the source's token carries a slice.
-/

namespace Borzoi

namespace Lexer

/- Lexical errors. -/
inductive LexError
  | UnterminatedString
  | UnterminatedComment
  | Unknown
  deriving DecidableEq, Repr

/- Which fragment of an interpolated string a token covers. -/
inductive InterpKind
  | BeginEnd (isByte : Bool)
  | Begin
  | Part
  | End (isByte : Bool)
  | TripleBeginEnd (isByte : Bool)
  | TripleBegin
  | VerbatimBeginEnd (isByte : Bool)
  | VerbatimBegin
  | ExtendedBeginEnd (n : Nat)
  | ExtendedBegin (n : Nat)
  deriving DecidableEq, Repr

/- The raw tokens.  `TypeKw` is the keyword `type`. -/
inductive Token
  | Whitespace
  | Newline
  | LineComment
  | BlockComment
  | And
  | As
  | Assert
  | Base
  | Begin
  | Class
  | Do
  | Done
  | DownTo
  | Else
  | End
  | Exception
  | False
  | Finally
  | For
  | Fun
  | Function
  | If
  | In
  | Inherit
  | Lazy
  | Let
  | Match
  | Mod
  | Module
  | Mutable
  | New
  | Of
  | Open
  | Or
  | Private
  | Rec
  | Sig
  | Struct
  | Then
  | To
  | True
  | Try
  | TypeKw
  | Val
  | When
  | While
  | With
  | Underscore
  | Abstract
  | Const
  | Default
  | Delegate
  | Downcast
  | Elif
  | Extern
  | Fixed
  | Global
  | Inline
  | Interface
  | Internal
  | Member
  | Namespace
  | Null
  | Override
  | Public
  | Return
  | Static
  | Upcast
  | Use
  | Void
  | Yield
  | DoBang
  | YieldBang
  | ReturnBang
  | MatchBang
  | AndBang
  | LetBang
  | UseBang
  | WhileBang
  | KeywordString (text : List Char)
  | Ident (text : List Char)
  | QuotedIdent (text : List Char)
  | XInt (text : List Char)
  | XIntSuffixed (text : List Char)
  | XIEEE32 (text : List Char)
  | XIEEE64 (text : List Char)
  | IntSuffixed (text : List Char)
  | BigNum (text : List Char)
  | Decimal (text : List Char)
  | Float32 (text : List Char)
  | Float64 (text : List Char)
  | IntDotDot (text : List Char)
  | Int (text : List Char)
  | Char (text : List Char)
  | TripleString
  | VerbatimString
  | String
  | InterpString (kind : InterpKind)
  | LParenStarRParen
  | LParen
  | RParen
  | LBrack
  | RBrack
  | LBrackBar
  | BarRBrack
  | LBrackLess
  | GreaterRBrack
  | LQuote
  | LQuoteRaw
  | RQuote
  | RQuoteRaw
  | RQuoteDot
  | RQuoteRawDot
  | RQuoteBarRBrace
  | RQuoteRawBarRBrace
  | LBrace
  | RBrace
  | LBraceBar
  | BarRBrace
  | Comma
  | SemiSemi
  | Semi
  | DotDotHat
  | DotDot
  | FunkyOpName (text : List Char)
  | Dot
  | ColonColon
  | ColonQMarkGreater
  | ColonQMark
  | ColonGreater
  | ColonEquals
  | Colon
  | RArrow
  | LArrow
  | Equals
  | AmpAmp
  | Amp
  | BarBar
  | Bar
  | QMarkQMark
  | QMark
  | Hash
  | Dollar
  | Tilde
  | Quote
  | Less (typars : Bool)
  | Greater (typars : Bool)
  | Op (text : List Char)
  deriving DecidableEq, Repr

/- A half-open byte range of the source. -/
structure Span where
  start : Nat
  stop : Nat
  deriving DecidableEq, Repr

/- One item of the raw token stream. -/
structure RawItem where
  result : Except LexError Token
  span : Span

end Lexer

end Borzoi
