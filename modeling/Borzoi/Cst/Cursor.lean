import Borzoi.Directives.Driver
import Borzoi.LexFilter.Fetch
import Borzoi.Text.Tiling

/-
  The cursor of the parser.

  The productions consume the filtered tokens, and the cursor walks the
  raw tokens beside them so that every byte of the source reaches the
  green tree once.  `Parser` has the fields that the cursor uses.
-/

namespace Borzoi

namespace Cst

open Directives
open LexFilter
open Lexer

/-
  The kinds the cursor and the version gates name.  The others are
  chosen by the productions, and are told apart by their number.
-/
inductive SyntaxKind
  | WHITESPACE
  | NEWLINE
  | LINE_COMMENT
  | BLOCK_COMMENT
  | HASH_LINE
  | WARN_DIRECTIVE
  | HASH_IF
  | HASH_ELSE
  | HASH_ELIF
  | HASH_ENDIF
  | INACTIVECODE
  | WITH_NULL_TYPE
  | ERROR
  | Other (number : Nat)
  deriving DecidableEq, Repr

/- A call of the green node builder. -/
inductive GreenEvent
  | startNode (kind : SyntaxKind)
  | token (kind : SyntaxKind) (text : List UInt8)
  | finishNode
  deriving DecidableEq, Repr

def GreenEvent.text
    (event : GreenEvent) :
    List UInt8 :=
  match event with
  | .token _ text => text
  | .startNode _ | .finishNode => []

/- The text of the tree that the builder has so far. -/
def greenText
    (builder : List GreenEvent) :
    List UInt8 :=
  builder.flatMap GreenEvent.text

/- `trivia_kind`. -/
def triviaKind
    (tok : Token) :
    Option SyntaxKind :=
  match tok with
  | .Whitespace => some .WHITESPACE
  | .Newline => some .NEWLINE
  | .LineComment => some .LINE_COMMENT
  | .BlockComment => some .BLOCK_COMMENT
  | _ => none

/- `TriviaToken::trivia_syntax_kind`. -/
def triviaSyntaxKind
    (tt : TriviaToken) :
    Option SyntaxKind :=
  match tt with
  | .HashLine => some .HASH_LINE
  | .WarnDirective => some .WARN_DIRECTIVE
  | .HashIf => some .HASH_IF
  | .HashElse => some .HASH_ELSE
  | .HashElif => some .HASH_ELIF
  | .HashEndif => some .HASH_ENDIF
  | .InactiveCode => some .INACTIVECODE
  | .Lexed _ => none

/- `raw_trivia_kind`. -/
def rawTriviaKind
    (tt : TriviaToken) :
    Option SyntaxKind :=
  match tt with
  | .Lexed t => triviaKind t
  | marker => triviaSyntaxKind marker

structure ParseError where
  message : String
  span : Span
  deriving DecidableEq, Repr

/- How the messages print tokens: the derived `Debug` of the source. -/
structure DebugText where
  token : Token → String
  lexError : LexError → String
  raw : Except PreprocError TriviaToken → String

/- `usize::MAX`. -/
def usizeMax : Nat := 2 ^ 64 - 1

structure Parser where
  source : List UInt8
  rawTokens : List CoreItem
  rawPos : Nat
  filteredTokens : List FilteredItem
  pos : Nat
  rawConsumedEnd : Nat
  builder : List GreenEvent
  errors : List ParseError
  depthLimitHit : Bool
  depthLimitSpan : Option Span

/- Whether a filtered token was inserted by the filter. -/
def isVirtual
    (item : FilteredItem) :
    Bool :=
  match item.result with
  | .ok (.Virtual _) => true
  | _ => false

namespace Parser

def new
    (source : List UInt8)
    (rawTokens : List CoreItem)
    (filteredTokens : List FilteredItem) :
    Parser where
  source := source
  rawTokens := rawTokens
  rawPos := 0
  filteredTokens := filteredTokens
  pos := 0
  rawConsumedEnd := 0
  builder := []
  errors := []
  depthLimitHit := false
  depthLimitSpan := none

/- The raw tokens that are not consumed. -/
def rawRest
    (s : Parser) :
    List CoreItem :=
  s.rawTokens.drop s.rawPos

def pushError
    (s : Parser)
    (message : String)
    (span : Span) :
    Parser :=
  { s with errors := s.errors ++ [⟨message, span⟩] }

/- The text is clamped at the bytes that are already in the tree. -/
def emitText
    (s : Parser)
    (kind : SyntaxKind)
    (span : Span) :
    Except Panic Parser :=
  let textStart := max span.start s.rawConsumedEnd
  let text :=
    if textStart ≥ span.stop then
      .ok []
    else
      sliceSource s.source textStart span.stop
  match text with
  | .error e => .error e
  | .ok text =>
      .ok { s with
        rawConsumedEnd := max s.rawConsumedEnd span.stop
        builder := s.builder ++ [.token kind text] }

/- Emit a raw token and step over it. -/
def emitRaw
    (s : Parser)
    (kind : SyntaxKind)
    (span : Span) :
    Except Panic Parser :=
  match s.emitText kind span with
  | .error e => .error e
  | .ok s' => .ok { s' with rawPos := s'.rawPos + 1 }

/-
  What a drained token becomes: a kind, with the message of an error.
  A structural directive error becomes nothing.
-/
def drainAs
    (debug : DebugText)
    (res : Except PreprocError TriviaToken) :
    Except Panic (Option (SyntaxKind × Option String)) :=
  match res with
  | .ok (.Lexed tok) =>
      match triviaKind tok with
      | some kind => .ok (some (kind, none))
      | none =>
          .ok (some (.ERROR, some ("unsupported token " ++
            debug.token tok ++ " rewritten by LexFilter; Phase 1 does " ++
            "not parse the surrounding construct")))
  | .ok marker =>
      match triviaSyntaxKind marker with
      | some kind => .ok (some (kind, none))
      | none => .error .ExpectFailed
  | .error (.Lex e) =>
      .ok (some (.ERROR, some ("lex error: " ++ debug.lexError e)))
  | .error _ => .ok none

def pushErrorIf
    (s : Parser)
    (message : Option String)
    (span : Span) :
    Parser :=
  match message with
  | some message => s.pushError message span
  | none => s

/- The loop of `drain_raw_up_to` over the tokens not consumed. -/
def drainLoop
    (debug : DebugText)
    (upTo : Nat) :
    List CoreItem → Parser → Except Panic Parser
  | [], s => .ok s
  | item :: rest, s =>
      if item.span.stop > upTo then
        .ok s
      else
        match drainAs debug item.result with
        | .error e => .error e
        | .ok none =>
            drainLoop debug upTo rest { s with rawPos := s.rawPos + 1 }
        | .ok (some (kind, error)) =>
            match (s.pushErrorIf error item.span).emitRaw kind item.span with
            | .error e => .error e
            | .ok s' => drainLoop debug upTo rest s'

def drainRawUpTo
    (debug : DebugText)
    (upTo : Nat)
    (s : Parser) :
    Except Panic Parser :=
  drainLoop debug upTo s.rawRest s

/- The raw position behind the tokens that end by `stop`. -/
def advancePast
    (stop : Nat) :
    List CoreItem → Nat → Nat
  | [], rawPos => rawPos
  | item :: rest, rawPos =>
      if item.span.stop ≤ stop then
        advancePast stop rest (rawPos + 1)
      else
        rawPos

def bumpInto
    (debug : DebugText)
    (kind : SyntaxKind)
    (s : Parser) :
    Except Panic Parser :=
  match s.filteredTokens[s.pos]? with
  | none => .ok s
  | some item =>
      if isVirtual item then
        let drainTo :=
          match s.filteredTokens[s.pos + 1]? with
          | some next => next.span.start
          | none => usizeMax
        match s.drainRawUpTo debug drainTo with
        | .error e => .error e
        | .ok s' =>
            .ok { s' with
              pos := s'.pos + 1
              builder := s'.builder ++ [.token kind []] }
      else
        match s.drainRawUpTo debug item.span.start with
        | .error e => .error e
        | .ok s' =>
            emitText
              { s' with
                pos := s'.pos + 1
                rawPos := advancePast item.span.stop s'.rawRest s'.rawPos }
              kind item.span

/- The loop of `bump_swallowed_closer` over the tokens not consumed. -/
def swallowLoop
    (debug : DebugText)
    (kind : SyntaxKind)
    (isCloser : Token → Bool)
    (closer construct : String) :
    List CoreItem → Parser → Except Panic Parser
  | [], s =>
      .ok (s.pushError ("unexpected end of input inside " ++ construct ++
        "; expected `" ++ closer ++ "`")
        ⟨s.source.length, s.source.length⟩)
  | item :: rest, s =>
      let stuck := s.pushError ("expected `" ++ closer ++ "` to close " ++
        construct ++ ", found " ++ debug.raw item.result) item.span
      match item.result with
      | .error _ => .ok stuck
      | .ok tt =>
          match rawTriviaKind tt with
          | some trivia =>
              match s.emitRaw trivia item.span with
              | .error e => .error e
              | .ok s' =>
                  swallowLoop debug kind isCloser closer construct rest s'
          | none =>
              match tt with
              | .Lexed t =>
                  if isCloser t then
                    s.emitRaw kind item.span
                  else
                    .ok stuck
              | _ => .ok stuck

def bumpSwallowedCloser
    (debug : DebugText)
    (kind : SyntaxKind)
    (isCloser : Token → Bool)
    (closer construct : String)
    (s : Parser) :
    Except Panic Parser :=
  swallowLoop debug kind isCloser closer construct s.rawRest s

/- Every byte left as one leaf, and where the tree then ends. -/
def errorLeaf
    (s : Parser) :
    Except Panic (List GreenEvent × Nat) :=
  if s.rawConsumedEnd < s.source.length then
    match sliceSource s.source s.rawConsumedEnd s.source.length with
    | .error e => .error e
    | .ok text => .ok ([.token .ERROR text], s.source.length)
  else
    .ok ([], s.rawConsumedEnd)

/- Emit every byte left and move both cursors to the end. -/
def triggerDepthLimit
    (s : Parser) :
    Except Panic Parser :=
  let span :=
    match s.filteredTokens[s.pos]? with
    | some item => item.span
    | none => ⟨s.source.length, s.source.length⟩
  match s.errorLeaf with
  | .error e => .error e
  | .ok (events, consumed) =>
      .ok { s with
        depthLimitHit := true
        depthLimitSpan := some span
        builder := s.builder ++ [.startNode .ERROR] ++ events ++
          [.finishNode]
        rawConsumedEnd := consumed
        rawPos := s.rawTokens.length
        pos := s.filteredTokens.length }

end Parser

/- The primitives that productions move the cursor with. -/
inductive CursorOp
  | bumpInto (kind : SyntaxKind)
  | drainRawUpTo (upTo : Nat)
  | bumpSwallowedCloser
      (kind : SyntaxKind)
      (isCloser : Token → Bool)
      (closer construct : String)
  | triggerDepthLimit

def CursorOp.exec
    (debug : DebugText)
    (op : CursorOp)
    (s : Parser) :
    Except Panic Parser :=
  match op with
  | .bumpInto kind => s.bumpInto debug kind
  | .drainRawUpTo upTo => s.drainRawUpTo debug upTo
  | .bumpSwallowedCloser kind isCloser closer construct =>
      s.bumpSwallowedCloser debug kind isCloser closer construct
  | .triggerDepthLimit => s.triggerDepthLimit

def runOps
    (debug : DebugText) :
    List CursorOp → Parser → Except Panic Parser
  | [], s => .ok s
  | op :: ops, s =>
      match op.exec debug s with
      | .error e => .error e
      | .ok s' => runOps debug ops s'

end Cst

end Borzoi
