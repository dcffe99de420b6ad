import Borzoi.LexFilter.Abstract

/-
  What one iteration of the fetch loop can do.

  `Act` lists the moves.  Each constructor says what happens to the
  pending tokens, the offside stack, the paren depth and the count of
  pass-through tokens, and what the iteration yields.  Every
  invariant of the filter is derived from this list.
-/

namespace Borzoi

namespace LexFilter

open Lexer

/- The part of the state the moves act on. -/
structure View where
  pending : List Delayed
  stack : List Context
  parenDepth : Nat
  noProcessing : Nat
  initialized : Bool

def Abs.view
    (t : Abs) :
    View :=
  ⟨t.pending, t.stack, t.parenDepth, t.noProcessing, t.initialized⟩

/- A queued token that is processed when it comes up. -/
def fresh
    (tt : TokenTup) :
    Delayed :=
  ⟨tt, false⟩

namespace Context

/- Heads of namespaces and modules. -/
def isHead
    (ctxt : Context) :
    Bool :=
  match ctxt with
  | .NamespaceHead _ _ | .ModuleHead _ _ _ _ => true
  | _ => false

def isParen
    (ctxt : Context) :
    Bool :=
  match ctxt with
  | .Paren _ _ => true
  | _ => false

def isBlock
    (ctxt : Context) :
    Bool :=
  match ctxt with
  | .SeqBlock _ _ _ => true
  | _ => false

/- Every other context. -/
def isPlain
    (ctxt : Context) :
    Bool :=
  !ctxt.isHead && !ctxt.isParen && !ctxt.isBlock

end Context

/- Whether the top of the stack is the head of a declaration. -/
def topIsHead
    (stack : List Context) :
    Bool :=
  stack.head?.any Context.isHead

/- Whether the content is a dummy. -/
def TokenContent.isDummy
    (content : TokenContent) :
    Bool :=
  match content with
  | .Dummy _ _ => true
  | _ => false

namespace TokenContent

variable {content : TokenContent} {tokens : List Token}

variable {token : Token}

theorem isReal_of_eq
    (hToken : content = .Real token) :
    content.isReal = true := by
  rw [hToken]
  rfl

theorem isAnyOf_of_eq
    (hToken : content = .Real token)
    (hMem : token ∈ tokens) :
    content.isAnyOf tokens = true :=
  (content.isAnyOf_iff tokens).2 ⟨token, hMem, hToken⟩

theorem isAnyOf_mono
    {more : List Token}
    (hAny : content.isAnyOf tokens = true)
    (hMore : ∀ token ∈ tokens, token ∈ more) :
    content.isAnyOf more = true := by
  rcases (content.isAnyOf_iff tokens).1 hAny with
    ⟨token, hMem, hToken⟩
  exact isAnyOf_of_eq hToken (hMore token hMem)

theorem isReal_of_isAnyOf
    (hAny : content.isAnyOf tokens = true) :
    content.isReal = true := by
  rcases (content.isAnyOf_iff tokens).1 hAny with ⟨_, _, rfl⟩
  rfl

theorem isReal_of_isIdent
    (hIdent : content.isIdent = true) :
    content.isReal = true := by
  cases content with
  | Real token =>
      rfl
  | _ =>
      cases hIdent

theorem ne_semiSemi_of_isAnyOf
    (hAny : content.isAnyOf tokens = true)
    (hTokens : Token.SemiSemi ∉ tokens) :
    content ≠ .Real .SemiSemi := by
  rintro rfl
  rcases (isAnyOf_iff _ tokens).1 hAny with ⟨token, hMem, hToken⟩
  cases hToken
  exact hTokens hMem

theorem ne_semiSemi_of_isIdent
    (hIdent : content.isIdent = true) :
    content ≠ .Real .SemiSemi := by
  rintro rfl
  cases hIdent

/- A raw token is neither a dummy nor the end of file. -/
theorem isDummy_of_isReal
    (hReal : content.isReal = true) :
    content.isDummy = false := by
  cases content with
  | Real token =>
      rfl
  | _ =>
      cases hReal

theorem ne_eof_of_isReal
    (hReal : content.isReal = true) :
    content ≠ .Eof := by
  rintro rfl
  cases hReal

theorem ne_virtual_of_isReal
    {virt : LexFilter.Virtual}
    (hReal : content.isReal = true) :
    content ≠ .Virtual virt := by
  rintro rfl
  cases hReal

end TokenContent

/- The two halves of a token cut after its first byte. -/
def pairHead
    (tt : TokenTup)
    (token : Token) :
    TokenTup :=
  ⟨.Real token, ⟨tt.span.start, tt.span.start + 1⟩, tt.start,
    ⟨tt.stop.line, tt.stop.col - 1⟩⟩

def pairTail
    (tt : TokenTup)
    (token : Token) :
    TokenTup :=
  ⟨.Real token, ⟨tt.span.start + 1, tt.span.stop⟩,
    ⟨tt.start.line, tt.start.col + 1⟩, tt.stop⟩

/- The tokens a scan cuts in two. -/
inductive PairCut
    (res : Bool) :
    Token → Token → Token → Prop
  | quote : PairCut res .LQuote (.Less res) (.Op "@".toList)
  | attribute : PairCut res .GreaterRBrack (.Greater res) .RBrack
  | lessSlash :
      PairCut res (.Op "</".toList) (.Less res) (.Op "/".toList)
  | lessHat :
      PairCut res (.Op "<^".toList) (.Less res) (.Op "^".toList)
  | greaterColon :
      PairCut res (.Op ">:".toList) (.Greater res) .Colon

/- The first `count` `>`s of a closing operator. -/
def greaters
    (tt : TokenTup)
    (res : Bool)
    (count : Nat) :
    List TokenTup :=
  (List.range count).map (FilterM.greaterTup tt res)

/- The tail of a closing operator. -/
def closePlain
    (tt : TokenTup)
    (count : Nat)
    (tail : Token) :
    TokenTup :=
  ⟨.Real tail, ⟨tt.span.start + count, tt.span.stop⟩,
    ⟨tt.start.line, tt.start.col + count⟩, tt.stop⟩

/- The closer a `|` tail forms with `]` or `}`. -/
def fusedCloser
    (next : TokenTup) :
    Token :=
  if next.token = .Real .RBrack then .BarRBrack else .BarRBrace

/- A `|` tail fused with the closer behind it. -/
def closeFused
    (tt next : TokenTup)
    (count : Nat) :
    TokenTup :=
  ⟨.Real (fusedCloser next),
    ⟨tt.span.start + count, next.span.stop⟩,
    ⟨tt.start.line, tt.start.col + count⟩, next.stop⟩

/- How a scan puts back one token. -/
inductive Cut
    (res : Bool)
    (tt : TokenTup) :
    List TokenTup → Prop
  | keep : Cut res tt [tt]
  | pair
      {token head tail : Token}
      (hToken : tt.token = .Real token)
      (hPair : PairCut res token head tail)
      (hCol : 1 ≤ tt.stop.col) :
      Cut res tt [pairHead tt head, pairTail tt tail]
  | greater
      {flag : Bool}
      (hToken : tt.token = .Real (.Greater flag)) :
      Cut res tt [tt.withToken (.Real (.Greater res))]
  | close
      {text : List Char}
      {count : Nat}
      (hToken : tt.token = .Real (.Op text))
      (hSplit : typarsCloseOpSplit text = some ⟨count, none⟩) :
      Cut res tt (greaters tt res count)
  | closeTail
      {text : List Char}
      {count : Nat}
      {tail : Token}
      (hToken : tt.token = .Real (.Op text))
      (hSplit : typarsCloseOpSplit text = some ⟨count, some tail⟩) :
      Cut res tt (greaters tt res count ++ [closePlain tt count tail])

/- A closing operator with a `|` tail and the closer it touches. -/
structure Fused
    (tt next : TokenTup)
    (text : List Char)
    (count : Nat) :
    Prop where
  token : tt.token = .Real (.Op text)
  split : typarsCloseOpSplit text =
    some ⟨count, some (.Op "|".toList)⟩
  touches : next.span.start = tt.span.stop
  closer : next.token = .Real .RBrack ∨ next.token = .Real .RBrace

/-
  The pending tokens after a scan.  `app` inserts the application
  virtual in front of the paren a successful scan ends at.
-/
inductive Recut
    (res : Bool) :
    List Delayed → List Delayed → Prop
  | refl (pending : List Delayed) : Recut res pending pending
  | cut
      {tt : TokenTup} {mark : Bool} {pieces : List TokenTup}
      {pending pending' : List Delayed}
      (hCut : Cut res tt pieces)
      (hRest : Recut res pending pending') :
      Recut res (⟨tt, mark⟩ :: pending)
        (pieces.map fresh ++ pending')
  | fuse
      {tt next : TokenTup} {mark mark' : Bool}
      {text : List Char} {count : Nat}
      {pending pending' : List Delayed}
      (hFused : Fused tt next text count)
      (hRest : Recut res pending pending') :
      Recut res (⟨tt, mark⟩ :: ⟨next, mark'⟩ :: pending)
        ((greaters tt res count ++ [closeFused tt next count]).map
          fresh ++ pending')
  | app
      {d : Delayed} {pending : List Delayed}
      (hRes : res = true)
      (hParen : d.tup.token = .Real .LParen) :
      Recut res (d :: pending)
        (fresh (d.tup.asVirtual .HighPrecedenceParenApp) ::
          d :: pending)

/- What lookahead leaves behind. -/
structure Ahead
    (v v' : View) :
    Prop where
  pending : Recut false v.pending v'.pending
  stack : v'.stack = v.stack
  parenDepth : v'.parenDepth = v.parenDepth
  noProcessing : v'.noProcessing = v.noProcessing
  initialized : v'.initialized = v.initialized

/- The glued tokens cut before dispatch. -/
inductive Glued
    (tt : TokenTup) :
    TokenTup → TokenTup → Prop
  | quoteDot
      {token close : Token}
      (hToken : tt.token = .Real token)
      (hKind : (token = .RQuoteDot ∧ close = .RQuote) ∨
        (token = .RQuoteRawDot ∧ close = .RQuoteRaw))
      (hByte : 1 ≤ tt.span.stop)
      (hCol : 1 ≤ tt.stop.col) :
      Glued tt
        ⟨.Real close, ⟨tt.span.start, tt.span.stop - 1⟩, tt.start,
          ⟨tt.stop.line, tt.stop.col - 1⟩⟩
        ⟨.Real .Dot, ⟨tt.span.stop - 1, tt.span.stop⟩,
          ⟨tt.start.line, tt.stop.col - 1⟩, tt.stop⟩
  | quoteBar
      {token close : Token}
      (hToken : tt.token = .Real token)
      (hKind : (token = .RQuoteBarRBrace ∧ close = .RQuote) ∨
        (token = .RQuoteRawBarRBrace ∧ close = .RQuoteRaw))
      (hByte : 2 ≤ tt.span.stop)
      (hCol : 2 ≤ tt.stop.col) :
      Glued tt
        ⟨.Real close, ⟨tt.span.start, tt.span.stop - 2⟩, tt.start,
          ⟨tt.stop.line, tt.stop.col - 2⟩⟩
        ⟨.Real .BarRBrace, ⟨tt.span.start + 1, tt.span.stop⟩,
          ⟨tt.start.line, tt.start.col + 1⟩, tt.stop⟩
  | intDotDot
      {text : List Char}
      (hToken : tt.token = .Real (.IntDotDot text))
      (hByte : 2 ≤ tt.span.stop)
      (hCol : 2 ≤ tt.stop.col) :
      Glued tt
        ⟨.Real (.Int (text.take (text.length - 2))),
          ⟨tt.span.start, tt.span.stop - 2⟩, tt.start,
          ⟨tt.stop.line, tt.stop.col - 2⟩⟩
        ⟨.Real .DotDot, ⟨tt.span.stop - 2, tt.span.stop⟩,
          ⟨tt.stop.line, tt.stop.col - 2⟩, tt.stop⟩
  | dotDotHat
      (hToken : tt.token = .Real .DotDotHat)
      (hByte : 1 ≤ tt.span.stop)
      (hCol : 1 ≤ tt.stop.col) :
      Glued tt
        ⟨.Real .DotDot, ⟨tt.span.start, tt.span.stop - 1⟩, tt.start,
          ⟨tt.stop.line, tt.stop.col - 1⟩⟩
        ⟨.Real (.Op "^".toList), ⟨tt.span.stop - 1, tt.span.stop⟩,
          ⟨tt.stop.line, tt.stop.col - 1⟩, tt.stop⟩

/- The virtual a block queues in front of its first token. -/
def blockBegins
    (addBlockEnd : AddBlockEnd)
    (anchor : TokenTup) :
    List TokenTup :=
  match addBlockEnd with
  | .Yes => [anchor.asVirtual .BlockBegin]
  | .No | .OneSided => []

/- The tokens a dummy stands for. -/
def dummyTokens : List Token :=
  [.In, .End, .RParen, .RBrace, .RBrack, .BarRBrack, .BarRBrace,
    .RQuote, .RQuoteRaw, .Greater true]

/-
  What happens to the stack and the paren depth when a token is
  consumed, and what is queued in its place.
-/
inductive Shape
    (tt : TokenTup)
    (stack : List Context)
    (depth : Nat) :
    List Context → List TokenTup → Nat → Prop
  | push
      {ctxt : Context}
      (hTop : topIsHead stack = false)
      (hPlain : ctxt.isPlain = true) :
      Shape tt stack depth (ctxt :: stack) [] depth
  | pushTwo
      {ctxt below : Context}
      (hTop : topIsHead stack = false)
      (hPlain : ctxt.isPlain = true)
      (hBelow : below.isPlain = true) :
      Shape tt stack depth (ctxt :: below :: stack) [] depth
  | pushHead
      {ctxt : Context}
      (hTop : topIsHead stack = false)
      (hHead : ctxt.isHead = true) :
      Shape tt stack depth (ctxt :: stack) [] depth
  | replace
      {old ctxt : Context}
      (hOld : stack.head? = some old)
      (hOldPlain : old.isPlain = true)
      (hPlain : ctxt.isPlain = true) :
      Shape tt stack depth (ctxt :: stack.tail) [] depth
  | replaceHead
      {old ctxt : Context}
      (hOld : stack.head? = some old)
      (hOldHead : old.isHead = true)
      (hHead : ctxt.isHead = true) :
      Shape tt stack depth (ctxt :: stack.tail) [] depth
  | block
      {first : Bool} {addBlockEnd : AddBlockEnd} {anchor : TokenTup}
      (hTop : topIsHead stack = false) :
      Shape tt stack depth
        (.SeqBlock first anchor.start addBlockEnd :: stack)
        (blockBegins addBlockEnd anchor) depth
  | pushBlock
      {ctxt : Context}
      {first : Bool} {addBlockEnd : AddBlockEnd} {anchor : TokenTup}
      (hTop : topIsHead stack = false)
      (hPlain : ctxt.isPlain = true) :
      Shape tt stack depth
        (.SeqBlock first anchor.start addBlockEnd :: ctxt :: stack)
        (blockBegins addBlockEnd anchor) depth
  | replaceBlock
      {old ctxt : Context}
      {first : Bool} {addBlockEnd : AddBlockEnd} {anchor : TokenTup}
      (hOld : stack.head? = some old)
      (hOldKind : old.isPlain = true ∨ old.isHead = true)
      (hPlain : ctxt.isPlain = true) :
      Shape tt stack depth
        (.SeqBlock first anchor.start addBlockEnd :: ctxt :: stack.tail)
        (blockBegins addBlockEnd anchor) depth
  | paren
      {parenPos : Pos} {opener : Opener}
      {first : Bool} {addBlockEnd : AddBlockEnd} {anchor : TokenTup}
      (hTop : topIsHead stack = false) :
      Shape tt stack depth
        (.SeqBlock first anchor.start addBlockEnd ::
          .Paren parenPos opener :: stack)
        (blockBegins addBlockEnd anchor) (depth + 1)
  | reparen
      {oldPos parenPos : Pos} {oldOpener opener : Opener}
      {first : Bool} {addBlockEnd : AddBlockEnd} {anchor : TokenTup}
      (hOld : stack.head? = some (.Paren oldPos oldOpener)) :
      Shape tt stack depth
        (.SeqBlock first anchor.start addBlockEnd ::
          .Paren parenPos opener :: stack.tail)
        (blockBegins addBlockEnd anchor) (depth - 1 + 1)
  | closeFill
      {oldPos : Pos} {oldOpener : Opener}
      (hOld : stack.head? = some (.Paren oldPos oldOpener)) :
      Shape tt stack depth stack.tail [] (depth - 1)
  | closeParen
      {oldPos : Pos} {oldOpener : Opener}
      {prevEnd : Nat} {inner : Token}
      (hOld : stack.head? = some (.Paren oldPos oldOpener))
      (hInner : inner ∈ dummyTokens) :
      Shape tt stack depth stack.tail
        [tt.withToken (.Dummy prevEnd inner)] (depth - 1)
  | balance
      {old : Context}
      {prevEnd : Nat} {inner : Token}
      (hOld : stack.head? = some old)
      (hOldPlain : old.isPlain = true)
      (hInner : inner ∈ dummyTokens) :
      Shape tt stack depth stack.tail
        [tt.withToken (.Dummy prevEnd inner)] depth
  | done
      {pos : Pos}
      (hOld : stack.head? = some (.Do pos)) :
      Shape tt stack depth stack.tail [tt.asVirtual .DeclEnd] depth

------------------------------------------------------------
-- Outputs
------------------------------------------------------------

/- The keywords a virtual is emitted for. -/
def replacedTokens : List Token :=
  [.In, .End, .Let, .Use, .LetBang, .UseBang, .AndBang, .Lazy,
    .Assert, .Fun, .Function, .Do, .DoBang, .Then, .Else, .With,
    .Interface]

/- The tokens nothing is emitted for. -/
def swallowedTokens : List Token :=
  [.RParen, .RBrace, .Module, .TypeKw, .Done]

/- The virtuals a keyword turns into. -/
def keywordVirtuals : List Virtual :=
  [.JoinIn, .DeclEnd, .End, .Let, .Binder, .AndBang, .Lazy, .Assert,
    .Fun, .Function, .Do, .DoBang, .Then, .Else, .With,
    .InterfaceMember]

/- What becomes of a consumed token. -/
inductive Output
    (useBlockRule : Bool)
    (tt : TokenTup) :
    Fetched → Prop
  | asIs : Output useBlockRule tt (.Yield tt)
  | virtual
      {virt : Virtual}
      (hToken : tt.token.isAnyOf replacedTokens = true)
      (hVirt : virt ∈ keywordVirtuals) :
      Output useBlockRule tt (.Yield (tt.asVirtual virt))
  | swallow
      (hToken : tt.token.isAnyOf swallowedTokens = true) :
      Output useBlockRule tt (.Again useBlockRule)

/- The one place a dummy could pass as it is: module attributes. -/
def inModuleAttributes
    (stack : List Context) :
    Bool :=
  match stack with
  | .ModuleHead _ _ true _ :: _ => true
  | _ => false

/- The end of an iteration that pops a context. -/
def closed
    (useBlockRule : Bool)
    (closing : Option Virtual)
    (tt : TokenTup) :
    Fetched :=
  match closing with
  | some virt => .Yield (tt.asVirtual virt)
  | none => .Again useBlockRule

/- The closing virtual of an offside context. -/
inductive OffsideClosing : Context → Option Virtual → Prop
  | block
      {first : Bool} {pos : Pos} {addBlockEnd : AddBlockEnd} :
      OffsideClosing (.SeqBlock first pos addBlockEnd)
        (blockClosing addBlockEnd)
  | silent
      {ctxt : Context}
      (hPlain : ctxt.isPlain = true) :
      OffsideClosing ctxt none
  | declEnd
      {ctxt : Context}
      (hPlain : ctxt.isPlain = true) :
      OffsideClosing ctxt (some .DeclEnd)
  | close
      {ctxt : Context}
      (hPlain : ctxt.isPlain = true) :
      OffsideClosing ctxt (some .End)

/- The `elif` an `else` and an `if` on one line become. -/
def fusedElif
    (tt next : TokenTup) :
    TokenTup :=
  ⟨.Real .Elif, ⟨tt.span.start, next.span.stop⟩, tt.start, next.stop⟩

/- The closing virtuals a cascade queues, the last one first. -/
def cascadeVirtuals
    (tt : TokenTup)
    (above : List Context) :
    List Delayed :=
  ((above.filterMap endTokenForACtxt).map fun virt =>
    (⟨tt.asVirtual virt, true⟩ : Delayed)).reverse

/-
  The moves on a token outside the pass-through prefix.  The view is
  that after the token was taken.
-/
inductive Act
    (useBlockRule : Bool)
    (tt : TokenTup)
    (v : View) :
    Fetched → View → Prop
  | cut
      {first second : TokenTup}
      (hGlued : Glued tt first second) :
      Act useBlockRule tt v (.Again useBlockRule)
        { v with
          pending := fresh first :: fresh second :: v.pending }
  | app
      {next : Delayed} {rest : List Delayed} {virt : Virtual}
      (hIdent : tt.token.isIdent = true)
      (hNext : v.pending = next :: rest)
      (hOpen : next.tup.token.isAnyOf [.LParen, .LBrack] = true)
      (hVirt : virt ∈ [Virtual.HighPrecedenceBrackApp,
        .HighPrecedenceParenApp]) :
      Act useBlockRule tt v (.Again useBlockRule)
        { v with
          pending := fresh tt :: fresh (next.tup.asVirtual virt) ::
            v.pending }
  | force
      {ctxt : Context}
      (hHead : v.stack.head? = some ctxt)
      (hForce : tokenForcesHeadContextClosure tt.token v.stack = true) :
      Act useBlockRule tt v
        (closed useBlockRule (endTokenForACtxt ctxt) tt)
        { v with
          pending := fresh tt :: v.pending
          stack := v.stack.tail }
  | pop
      {ctxt : Context} {closing : Option Virtual}
      (hHead : v.stack.head? = some ctxt)
      (hClosing : OffsideClosing ctxt closing)
      (hOffside : ctxt.isBlock = true →
        tt.token = .Virtual .BlockBegin → ctxt.startPos ≠ tt.start) :
      Act useBlockRule tt v (closed useBlockRule closing tt)
        { v with
          pending := fresh tt :: v.pending
          stack := v.stack.tail }
  | endHead
      {ctxt : Context} {out : TokenTup}
      (hHead : v.stack.head? = some ctxt)
      (hKind : ctxt.isHead = true)
      (hOut : out.token = .Virtual .BlockSep) :
      Act useBlockRule tt v (.Yield out)
        { v with
          pending := fresh tt :: v.pending
          stack := v.stack.tail }
  | reset
      (hSemi : tt.token = .Real .SemiSemi)
      (hEmpty : v.stack = []) :
      Act useBlockRule tt v (.Yield tt) { v with initialized := false }
  | flip
      {pos : Pos} {addBlockEnd : AddBlockEnd}
      (hRule : useBlockRule = true)
      (hHead : v.stack.head? = some (.SeqBlock true pos addBlockEnd)) :
      Act useBlockRule tt v (.Again false)
        { v with
          pending := fresh tt :: v.pending
          stack := .SeqBlock false pos addBlockEnd :: v.stack.tail }
  | sep
      {pos : Pos} {addBlockEnd : AddBlockEnd} {out : TokenTup}
      (hRule : useBlockRule = true)
      (hHead : v.stack.head? = some (.SeqBlock false pos addBlockEnd))
      (hOut : out.token = .Virtual .BlockSep) :
      Act useBlockRule tt v (.Yield out)
        { v with
          pending := fresh tt :: v.pending
          stack := .SeqBlock true pos addBlockEnd :: v.stack.tail }
  | openBody
      {head body : Context} {first : Bool}
      (hHead : v.stack.head? = some head)
      (hKind : head.isHead = true)
      (hBody : body.isPlain = true) :
      Act useBlockRule tt v (.Again false)
        { v with
          pending := fresh (tt.asVirtual .BlockBegin) ::
            fresh tt :: v.pending
          stack := .SeqBlock first tt.start .Yes :: body ::
            v.stack.tail }
  | settle
      {fetched : Fetched}
      (hDummy : tt.token.isDummy = true →
        inModuleAttributes v.stack = true)
      (hEof : tt.token = .Eof → v.stack = [])
      (hOut : Output useBlockRule tt fetched) :
      Act useBlockRule tt v fetched v
  | drop
      (hDummy : tt.token.isDummy = true) :
      Act useBlockRule tt v (.Again useBlockRule) v
  | shift
      {stack : List Context} {queued : List TokenTup} {depth : Nat}
      {fetched : Fetched}
      (hReal : tt.token.isReal = true)
      (hShape : Shape tt v.stack v.parenDepth stack queued depth)
      (hOut : Output useBlockRule tt fetched) :
      Act useBlockRule tt v fetched
        { v with
          pending := queued.map fresh ++ v.pending
          stack := stack
          parenDepth := depth }
  | elif
      {next : Delayed} {rest : List Delayed}
      (hElse : tt.token = .Real .Else)
      (hTop : topIsHead v.stack = false)
      (hNext : v.pending = next :: rest)
      (hIf : next.tup.token = .Real .If) :
      Act useBlockRule tt v (.Yield (fusedElif tt next.tup))
        { v with
          pending := rest
          stack := .If tt.start :: v.stack }
  | cascade
      {above below : List Context} {pos : Pos}
      (hToken : tt.token.isAnyOf memberKeywords = true)
      (hPops : thereIsACtxtMemberBodyOnTheStackAndWeShouldPop
        v.stack = true)
      (hStack : v.stack = above ++ .MemberBody pos :: below)
      (hAbove : ∀ c ∈ above, c.isMemberBody = false) :
      Act useBlockRule tt v (.Again useBlockRule)
        { v with
          pending := cascadeVirtuals tt above ++
            ⟨tt, true⟩ :: v.pending
          stack := below
          noProcessing := (cascadeVirtuals tt above).length + 1 }
  | typeApp
      {less : Delayed} {flag : Bool} {rest : List Delayed}
      (hTrigger : isTyparApplicationTrigger tt.token = true)
      (hRecut : Recut true v.pending (less :: rest))
      (hLess : less.tup.token = .Real (.Less flag)) :
      Act useBlockRule tt v (.Yield tt)
        { v with
          pending := fresh (less.tup.asVirtual .HighPrecedenceTyApp) ::
            fresh (less.tup.withToken (.Real (.Less true))) :: rest }

/- The moves of an iteration on the token `tt`. -/
inductive Move
    (useBlockRule : Bool)
    (tt : TokenTup)
    (v : View) :
    Fetched → View → Prop
  | passThrough
      (hCount : 0 < v.noProcessing) :
      Move useBlockRule tt v (.Yield tt)
        { v with noProcessing := v.noProcessing - 1 }
  | act
      {ahead v' : View} {fetched : Fetched}
      (hIdle : v.noProcessing = 0)
      (hAhead : Ahead v ahead)
      (hAct : Act useBlockRule tt ahead fetched v') :
      Move useBlockRule tt v fetched v'

/- One iteration of the fetch loop. -/
inductive Iterates
    (useBlockRule : Bool)
    (v : View) :
    Fetched → View → Prop
  | exhausted
      (hPending : v.pending = []) :
      Iterates useBlockRule v .Exhausted v
  | moved
      {d : Delayed} {rest : List Delayed}
      {fetched : Fetched} {v' : View}
      (hPending : v.pending = d :: rest)
      (hMove : Move useBlockRule d.tup { v with pending := rest }
        fetched v') :
      Iterates useBlockRule v fetched v'

variable {v v' : View}

/- Only the reset leaves the filter uninitialized. -/
theorem Act.initialized
    {useBlockRule : Bool}
    {tt : TokenTup}
    {fetched : Fetched}
    (hAct : Act useBlockRule tt v fetched v') :
    v'.initialized = v.initialized ∨ fetched = .Yield tt := by
  cases hAct with
  | reset _ _ =>
      exact .inr rfl
  | _ =>
      exact .inl rfl

/- An iteration that restarts leaves the filter initialized. -/
theorem Iterates.initialized
    {useBlockRule again : Bool}
    (hInit : v.initialized = true)
    (hMove : Iterates useBlockRule v (.Again again) v') :
    v'.initialized = true := by
  cases hMove with
  | moved hPending hMove =>
      cases hMove with
      | act hIdle hAhead hAct =>
          rcases hAct.initialized with hSame | hYield
          · exact hSame.trans (hAhead.initialized.trans hInit)
          · cases hYield

end LexFilter

end Borzoi
