import Borzoi.Lexer.Token

/-
  The data model of the offside filter.
-/

namespace Borzoi

namespace LexFilter

open Lexer

/- A source position: one-based line, zero-based byte column. -/
structure Pos where
  line : Nat
  col : Nat
  deriving DecidableEq, Repr

/- A limit position with the column the limit allows. -/
structure PositionWithColumn where
  pos : Pos
  col : Int
  deriving DecidableEq, Repr

/- Tokens the filter inserts. -/
inductive Virtual
  | Let
  | Binder
  | AndBang
  | BlockBegin
  | BlockEnd
  | DeclEnd
  | BlockSep
  | Do
  | DoBang
  | Then
  | Else
  | Fun
  | Function
  | Lazy
  | Assert
  | End
  | With
  | JoinIn
  | InterfaceMember
  | RightBlockEnd
  | HighPrecedenceTyApp
  | HighPrecedenceParenApp
  | HighPrecedenceBrackApp
  deriving DecidableEq, Repr

/- What the filter emits. -/
inductive FilteredToken
  | Raw (token : Token)
  | Virtual (virt : Virtual)
  deriving DecidableEq, Repr

/- Whether a block inserts a closing virtual. -/
inductive AddBlockEnd
  | Yes
  | No
  | OneSided
  deriving DecidableEq, Repr

/- What precedes the cursor in a namespace head. -/
inductive NamespacePrev
  | Keyword
  | Ident
  deriving DecidableEq, Repr

/- What precedes the cursor in a module head. -/
inductive ModuleHeadPrev
  | Module
  | RecOrDot
  | Ident
  | Global
  deriving DecidableEq, Repr

/- The bracket that opened a `Paren` context. -/
inductive Opener
  | Paren
  | Brace
  | Brack
  | BrackBar
  | BraceBar
  | Begin
  | Sig
  | Class
  | Struct
  | Interface
  | Quote
  | QuoteRaw
  | TyparAngle
  | InterpFill
  deriving DecidableEq, Repr

/- The openers `undentation_limit` treats as expression parens. -/
def Opener.isTokenLExprParen
    (opener : Opener) :
    Bool :=
  match opener with
  | .Paren | .Brace | .Brack | .BrackBar | .BraceBar
  | .Begin | .Quote | .QuoteRaw | .TyparAngle => true
  | .Sig | .Class | .Struct | .Interface | .InterpFill => false

/- An entry of the offside stack. -/
inductive Context
  | SeqBlock (first : Bool) (pos : Pos) (addBlockEnd : AddBlockEnd)
  | LetDecl (blockLet : Bool) (pos : Pos)
  | For (pos : Pos) (depth : Nat)
  | Do (pos : Pos)
  | While (pos : Pos) (depth : Nat)
  | Fun (pos : Pos) (depth : Nat)
  | Function (pos : Pos)
  | If (pos : Pos)
  | Then (pos : Pos)
  | Else (pos : Pos)
  | Match (pos : Pos)
  | MatchClauses (leadingBar : Bool) (pos : Pos)
  | When (pos : Pos)
  | Vanilla (pos : Pos) (isLongIdentEquals : Bool)
  | Paren (pos : Pos) (opener : Opener)
  | Try (pos : Pos)
  | WithAsLet (pos : Pos)
  | NamespaceHead (pos : Pos) (prev : NamespacePrev)
  | NamespaceBody (pos : Pos)
  | ModuleHead (pos : Pos) (prev : ModuleHeadPrev)
      (attrs : Bool) (nested : Bool)
  | ModuleBody (pos : Pos) (wholeFile : Bool)
  | TypeDefns (pos : Pos) (equalsEnd : Option Pos)
  | MemberHead (pos : Pos)
  | MemberBody (pos : Pos)
  | WithAsAugment (pos : Pos)
  | Exception (pos : Pos)
  | InterfaceHead (pos : Pos)
  deriving DecidableEq, Repr

/- Where a context started. -/
def Context.startPos
    (ctxt : Context) :
    Pos :=
  match ctxt with
  | .SeqBlock _ pos _ | .LetDecl _ pos | .For pos _ | .Do pos
  | .While pos _ | .Fun pos _ | .Function pos | .If pos
  | .Then pos | .Else pos | .Match pos | .MatchClauses _ pos
  | .When pos | .Vanilla pos _ | .Paren pos _ | .Try pos
  | .WithAsLet pos | .NamespaceHead pos _ | .NamespaceBody pos
  | .ModuleHead pos _ _ _ | .ModuleBody pos _ | .TypeDefns pos _
  | .MemberHead pos | .MemberBody pos | .WithAsAugment pos
  | .Exception pos | .InterfaceHead pos => pos

/- The content of a token in flight. -/
inductive TokenContent
  | Real (token : Token)
  | Err (error : LexError)
  | Eof
  | Virtual (virt : Virtual)
  | Dummy (prevEnd : Nat) (inner : Token)
  deriving DecidableEq, Repr

/- Whether the content is one of the listed raw tokens. -/
def TokenContent.isAnyOf
    (content : TokenContent)
    (tokens : List Token) :
    Bool :=
  match content with
  | .Real token => tokens.contains token
  | _ => false

theorem TokenContent.isAnyOf_iff
    (content : TokenContent)
    (tokens : List Token) :
    content.isAnyOf tokens = true ↔
      ∃ token ∈ tokens, content = .Real token := by
  cases content <;> simp [isAnyOf]

/- Whether the content is a plain or quoted identifier. -/
def TokenContent.isIdent
    (content : TokenContent) :
    Bool :=
  match content with
  | .Real (.Ident _) | .Real (.QuotedIdent _) => true
  | _ => false

/- A token in flight with its span and positions. -/
structure TokenTup where
  token : TokenContent
  span : Span
  start : Pos
  stop : Pos
  deriving DecidableEq, Repr

/- Replace the content, keeping span and positions. -/
def TokenTup.withToken
    (tt : TokenTup)
    (token : TokenContent) :
    TokenTup :=
  { tt with token := token }

/- Replace the content by a virtual token. -/
def TokenTup.asVirtual
    (tt : TokenTup)
    (virt : Virtual) :
    TokenTup :=
  tt.withToken (.Virtual virt)

/-
  What a rule decides.  `RestartWithoutBlockRule` is `Restart` after
  the source's `*use_block_rule = false`.
-/
inductive Step
  | Pass (tt : TokenTup)
  | Restart
  | RestartWithoutBlockRule
  | Emit (tt : TokenTup)

/- Two tokens touch. -/
def isAdjacent
    (left right : TokenTup) :
    Bool :=
  left.span.stop == right.span.start

/- The F# language versions, in order. -/
inductive LanguageVersion
  | V4_6
  | V4_7
  | V5_0
  | V6_0
  | V7_0
  | V8_0
  | V9_0
  | V10_0
  | V11_0
  | Preview
  deriving DecidableEq, Repr

namespace LanguageVersion

/- The place of a version in the source's derived order. -/
def rank
    (version : LanguageVersion) :
    Nat :=
  match version with
  | .V4_6 => 0
  | .V4_7 => 1
  | .V5_0 => 2
  | .V6_0 => 3
  | .V7_0 => 4
  | .V8_0 => 5
  | .V9_0 => 6
  | .V10_0 => 7
  | .V11_0 => 8
  | .Preview => 9

def strictIndentationIsError
    (version : LanguageVersion) :
    Bool :=
  V8_0.rank ≤ version.rank

def reportsInvalidDeclsInTypeDefinitions
    (version : LanguageVersion) :
    Bool :=
  V10_0.rank ≤ version.rank

end LanguageVersion

/- Severity of an offside diagnostic. -/
inductive OffsideSeverity
  | Warning
  | Error
  deriving DecidableEq, Repr

/- The declarations that cannot nest in a type definition. -/
inductive NestedDeclKeyword
  | TypeKw
  | Module
  | Exception
  deriving DecidableEq, Repr

/-
  The text of a diagnostic: the indentation warning with the line and
  UTF-16 column of the limiting context, or the nesting error.
-/
inductive OffsideMessage
  | Undentation (line : Nat) (utf16Col : Nat)
  | NestedDecl (keyword : NestedDeclKeyword)
  deriving DecidableEq, Repr

structure OffsideDiagnostic where
  message : OffsideMessage
  span : Span
  severity : OffsideSeverity
  deriving DecidableEq, Repr

/- Whether a push may be refused by the language version. -/
inductive PushStrictness
  | AlwaysLenient
  | VersionGated
  deriving DecidableEq, Repr

/- The recorded kind of a pushed context. -/
inductive PushedContext
  | SeqBlock
  | ModuleBody (wholeFile : Bool)
  | NamespaceBody
  | Paren (opener : Opener)
  | Other
  deriving DecidableEq, Repr

def PushedContext.of
    (ctxt : Context) :
    PushedContext :=
  match ctxt with
  | .SeqBlock _ _ _ => .SeqBlock
  | .ModuleBody _ wholeFile => .ModuleBody wholeFile
  | .NamespaceBody _ => .NamespaceBody
  | .Paren _ opener => .Paren opener
  | _ => .Other

structure ContextPush where
  kind : PushedContext
  anchor : Nat
  depth : Nat
  deriving DecidableEq, Repr

end LexFilter

end Borzoi
