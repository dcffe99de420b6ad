import Borzoi.Directives.LineStore
import Borzoi.Lexer.Interp
import Borzoi.Program.Machine

/-
  The preprocessor.

  The driver reads the source line by line.  It intercepts directive
  lines, drives the lexer in active branches and skips the lines of
  dead ones.  In full-trivia mode it also emits directive lines and
  dead regions.
-/

namespace Borzoi

namespace Directives

open Lexer
open Program

inductive PreprocError
  | Lex (e : LexError)
  | Directive (e : DirectiveError)
  | UnmatchedEndIf (range : Span)
  | OrphanElse (range : Span)
  | OrphanElif (range : Span)
  | DoubleElse (range prevElse : Span)
  | ElifAfterElse (range prevElse : Span)
  | UnclosedIfAtEof (ifSpan : Span) (eof : Nat)
  deriving DecidableEq, Repr

inductive TriviaToken
  | Lexed (token : Token)
  | HashLine
  | WarnDirective
  | HashIf
  | HashElse
  | HashElif
  | HashEndif
  | InactiveCode
  deriving DecidableEq, Repr

structure CoreItem where
  result : Except PreprocError TriviaToken
  span : Span

/- An item of the swallow-mode iterator. -/
structure DriverItem where
  result : Except PreprocError Token
  span : Span

/- `directive_trivia_token`. -/
def directiveTriviaToken
    (directive : Directive) :
    Option TriviaToken :=
  match directive with
  | .Line _ _ => some .HashLine
  | .NoWarn | .WarnOn => some .WarnDirective
  | .If _ | .Elif _ | .Else | .EndIf => none

/- `cc_directive_marker`. -/
def ccDirectiveMarker
    (kind : DirectiveKind) :
    TriviaToken :=
  match kind with
  | .If => .HashIf
  | .Elif => .HashElif
  | .Else => .HashElse
  | .EndIf => .HashEndif

/- One open `#if`. -/
structure Frame where
  ifSpan : Span
  armLit : Bool
  anyArmLit : Bool
  elseSpan : Option Span
  deriving DecidableEq, Repr

/- Whether every arm of the stack is lit. -/
def allLit
    (stack : List Frame) :
    Bool :=
  stack.all Frame.armLit

/- `parent_active_for`.  The innermost frame comes first. -/
def parentActiveFor
    (stack : List Frame)
    (kind : DirectiveKind) :
    Bool :=
  match kind with
  | .If => allLit stack
  | .Elif | .Else | .EndIf => allLit stack.tail

/- A diagnostic over the range of its directive. -/
def diagnostic
    (e : PreprocError)
    (range : Span) :
    CoreItem :=
  ⟨.error e, range⟩

/- A diagnostic about the `#else` of the chain, if it is reported. -/
def chainDiagnostic
    (parentActive : Bool)
    (elseSpan : Option Span)
    (range : Span)
    (e : Span → PreprocError) :
    List CoreItem :=
  match elseSpan with
  | some prev => if parentActive then [diagnostic (e prev) range] else []
  | none => []

/- `apply_directive`: the stack and the diagnostics to queue. -/
def applyDirective
    (stack : List Frame)
    (range : Span)
    (kind : DirectiveKind)
    (exprValue : Option Bool)
    (parentActive : Bool) :
    List Frame × List CoreItem :=
  match kind, stack with
  | .If, _ =>
      let armLit := parentActive && exprValue.getD false
      (⟨range, armLit, armLit, none⟩ :: stack, [])
  | .Elif, [] => ([], [diagnostic (.OrphanElif range) range])
  | .Elif, top :: below =>
      let armLit := parentActive && !top.anyArmLit &&
        exprValue.getD false
      ({ top with
          armLit := armLit
          anyArmLit := top.anyArmLit || armLit } :: below,
        chainDiagnostic parentActive top.elseSpan range
          (.ElifAfterElse range))
  | .Else, [] => ([], [diagnostic (.OrphanElse range) range])
  | .Else, top :: below =>
      let armLit := parentActive && !top.anyArmLit
      ({ top with
          armLit := armLit
          anyArmLit := top.anyArmLit || armLit
          elseSpan := some range } :: below,
        chainDiagnostic parentActive top.elseSpan range
          (.DoubleElse range))
  | .EndIf, [] => ([], [diagnostic (.UnmatchedEndIf range) range])
  | .EndIf, _ :: below => (below, [])

structure LexerState where
  base : Nat
  nextPos : Nat
  iter : InterpDriver

/- The state of the driver.  `symbols` tells the defined symbols. -/
structure DriverCore where
  source : List UInt8
  symbols : List UInt8 → Bool
  pos : Nat
  stack : List Frame
  pending : List CoreItem
  eofDone : Bool
  lexer : Option LexerState
  pendingInterpFrames : List Lexer.Frame
  lineDirectives : LineDirectiveStore
  lineScanOffset : Nat
  lineScanLine : Nat
  triviaMode : Bool
  coveredEnd : Nat
  elifDirectives : List Span

namespace DriverCore

/- `DriverCore::new`. -/
def new
    (source : List UInt8)
    (symbols : List UInt8 → Bool)
    (triviaMode : Bool) :
    DriverCore where
  source := source
  symbols := symbols
  pos := 0
  stack := []
  pending := []
  eofDone := false
  lexer := none
  pendingInterpFrames := []
  lineDirectives := .new
  lineScanOffset := 0
  lineScanLine := 0
  triviaMode := triviaMode
  coveredEnd := 0
  elifDirectives := []

/- Queue items. -/
def queue
    (d : DriverCore)
    (items : List CoreItem) :
    DriverCore :=
  { d with pending := d.pending ++ items }

/- `fill_inactive_gap`. -/
def fillInactiveGap
    (d : DriverCore)
    (upTo : Nat) :
    DriverCore :=
  if d.triviaMode ∧ d.coveredEnd < upTo then
    { d.queue [⟨.ok .InactiveCode, ⟨d.coveredEnd, upTo⟩⟩] with
      coveredEnd := upTo }
  else
    d

/- Cover a range behind the dead region in front of it. -/
def cover
    (d : DriverCore)
    (item : CoreItem) :
    DriverCore :=
  let filled := d.fillInactiveGap item.span.start
  { filled.queue [item] with
    coveredEnd := max filled.coveredEnd item.span.stop }

/- `emit_trivia_marker`. -/
def emitTriviaMarker
    (d : DriverCore)
    (marker : TriviaToken)
    (range : Span) :
    DriverCore :=
  d.cover ⟨.ok marker, range⟩

/- `at_line_start`. -/
def atLineStart
    (d : DriverCore) :
    Bool :=
  d.pos == 0 ||
    (d.pos ≤ d.source.length && d.source[d.pos - 1]?.any isLineBreak)

/- `currently_active`. -/
def currentlyActive
    (d : DriverCore) :
    Bool :=
  allLit d.stack

/- `generated_line_at`. -/
def generatedLineAt
    (d : DriverCore)
    (offset : Nat) :
    Nat × DriverCore :=
  let offset := min offset d.source.length
  let chunk := slice d.source d.lineScanOffset offset
  let line := d.lineScanLine + lineIndex chunk chunk.length
  (line, { d with lineScanLine := line, lineScanOffset := offset })

/- `eval_expr`. -/
def evalExpr
    (d : DriverCore)
    (e : Expr) :
    Bool :=
  e.eval d.symbols

/- `invalidate_lexer`. -/
def invalidateLexer
    (d : DriverCore) :
    DriverCore :=
  match d.lexer with
  | some state =>
      { d with
        pendingInterpFrames := state.iter.frames
        lexer := none }
  | none => d

/- `advance_to_next_line_start`. -/
def advanceToNextLineStart
    (d : DriverCore) :
    DriverCore :=
  let stop := lineEndAt d.source d.pos
  let pos :=
    if d.source[stop]? = some (byte '\r') ∧
        d.source[stop + 1]? = some (byte '\n') then
      stop + 2
    else if stop < d.source.length then
      stop + 1
    else
      stop
  { d with pos := pos }

/- Move behind a directive. -/
def skipTo
    (d : DriverCore)
    (pos : Nat) :
    DriverCore :=
  ({ d with pos := pos }).invalidateLexer

/- Record a `#line` directive. -/
def recordLine
    (d : DriverCore)
    (r : Recognised) :
    DriverCore :=
  match r.directive with
  | .Line number file =>
      match d.generatedLineAt r.range.start with
      | (line, d₁) =>
          { d₁ with
            lineDirectives := d₁.lineDirectives.push
              ⟨line, number, file⟩ }
  | _ => d

/- A `#nowarn`, `#warnon` or `#line`. -/
def handleTrivia
    (d : DriverCore)
    (r : Recognised) :
    DriverCore :=
  if d.currentlyActive then
    let recorded := d.recordLine r
    let marked :=
      match directiveTriviaToken r.directive with
      | some marker =>
          if recorded.triviaMode then
            recorded.emitTriviaMarker marker r.range
          else
            recorded
      | none => recorded
    marked.skipTo r.range.stop
  else
    d.skipTo r.range.stop

/- What a conditional directive says. -/
structure Condition where
  range : Span
  kind : DirectiveKind
  exprValue : Option Bool
  bodyErr : Option DirectiveError
  suppressState : Bool

/- The value of the condition, `none` where there is none. -/
def valueOf
    (d : DriverCore)
    (directive : Directive) :
    Option Bool :=
  match directive with
  | .If e | .Elif e => some (d.evalExpr e)
  | _ => none

/- A malformed condition counts as false. -/
def recoveredValue
    (kind : DirectiveKind) :
    Option Bool :=
  match kind with
  | .If | .Elif => some false
  | .Else | .EndIf => none

/- Whether a malformed directive leaves the stack alone. -/
def suppresses
    (e : DirectiveError) :
    Bool :=
  e.kind == .MissingSeparator &&
    (e.keyword == .If || e.keyword == .Elif)

/- Record where an `#elif` stands. -/
def noteElif
    (d : DriverCore)
    (c : Condition) :
    DriverCore :=
  if c.kind = .Elif ∧ c.suppressState = false then
    { d with elifDirectives := d.elifDirectives ++ [c.range] }
  else
    d

/- The marker of a visible directive. -/
def markCondition
    (d : DriverCore)
    (c : Condition)
    (parentActive : Bool) :
    DriverCore :=
  if d.triviaMode ∧ parentActive then
    d.emitTriviaMarker (ccDirectiveMarker c.kind) c.range
  else
    d

/- The diagnostic of a visible malformed directive. -/
def reportBody
    (d : DriverCore)
    (bodyErr : Option DirectiveError)
    (parentActive : Bool) :
    DriverCore :=
  match bodyErr with
  | some e =>
      if parentActive then
        d.queue [diagnostic (.Directive e) e.range]
      else
        d
  | none => d

/- What the directive does to the stack. -/
def applyCondition
    (d : DriverCore)
    (c : Condition)
    (parentActive : Bool) :
    DriverCore :=
  if c.suppressState then
    d
  else
    match applyDirective d.stack c.range c.kind c.exprValue
        parentActive with
    | (stack, items) => { d.queue items with stack := stack }

/- A conditional directive, the second half of the handler. -/
def handleCondition
    (d : DriverCore)
    (c : Condition) :
    DriverCore :=
  let parentActive := parentActiveFor d.stack c.kind
  let marked := (d.noteElif c).markCondition c parentActive
  let reported := marked.reportBody c.bodyErr parentActive
  (reported.applyCondition c parentActive).skipTo c.range.stop

/- `handle_directive_result`. -/
def handleDirectiveResult
    (d : DriverCore)
    (result : Except DirectiveError Recognised) :
    DriverCore :=
  match result with
  | .ok r =>
      match r.directive.kind with
      | none => d.handleTrivia r
      | some kind =>
          d.handleCondition
            ⟨r.range, kind, d.valueOf r.directive, none, false⟩
  | .error e =>
      d.handleCondition
        ⟨e.range, e.keyword, recoveredValue e.keyword, some e,
          suppresses e⟩

/- The lexer at the driver's place, recreated where it is stale. -/
def freshLexer
    (d : DriverCore) :
    LexerState × DriverCore :=
  let recreated : LexerState × DriverCore :=
    (⟨d.pos, d.pos, .newWithFrames (d.source.drop d.pos)
        d.pendingInterpFrames⟩,
      { d with pendingInterpFrames := [] })
  match d.lexer with
  | none => recreated
  | some state => if state.nextPos = d.pos then (state, d) else recreated

/- `next_logos_token`. -/
def nextLogosToken
    (logos : Logos)
    (d : DriverCore) :
    Option (Except LexError Token × Span) × DriverCore :=
  match d.freshLexer with
  | (state, d₁) =>
      match state.iter.next logos with
      | none => (none, { d₁ with lexer := some state })
      | some ((tok, rel), iter) =>
          let span : Span := ⟨rel.start + state.base,
            rel.stop + state.base⟩
          (some (tok, span),
            { d₁ with lexer := some ⟨state.base, span.stop, iter⟩ })

/- The item of a lexed token. -/
def tokenItem
    (tok : Except LexError Token)
    (span : Span) :
    CoreItem :=
  match tok with
  | .ok token => ⟨.ok (.Lexed token), span⟩
  | .error e => ⟨.error (.Lex e), span⟩

/- The diagnostics of the frames open at the end of the source. -/
def unclosed
    (d : DriverCore) :
    List CoreItem :=
  d.stack.reverse.map fun frame =>
    ⟨.error (.UnclosedIfAtEof frame.ifSpan d.source.length),
      ⟨d.source.length, d.source.length⟩⟩

/- The end of the source, which is seen once. -/
def reachEof
    (d : DriverCore) :
    DriverCore :=
  let filled := ({ d with eofDone := true }).fillInactiveGap
    d.source.length
  { filled.queue d.unclosed with stack := [] }

end DriverCore

/- How a turn of the loop in `next` ends. -/
inductive Turn
  | Yield (item : CoreItem)
  | Continue
  | Finish

namespace DriverCore

/- The directive at the driver's place. -/
def directiveHere
    (d : DriverCore) :
    Recognition :=
  if d.pos < d.source.length ∧ d.atLineStart then
    recogniseDirective d.source d.pos
  else
    none

/- A turn in an active branch. -/
def lexHere
    (logos : Logos)
    (d : DriverCore) :
    Turn × DriverCore :=
  match d.nextLogosToken logos with
  | (none, d₁) => (.Finish, d₁)
  | (some (tok, span), d₁) =>
      let moved := { d₁ with pos := span.stop }
      let item := tokenItem tok span
      if moved.triviaMode then
        (.Continue, moved.cover item)
      else
        (.Yield item, moved)

/- A turn with nothing pending. -/
def work
    (logos : Logos)
    (d : DriverCore) :
    Turn × DriverCore :=
  match d.directiveHere with
  | some result => (.Continue, d.handleDirectiveResult result)
  | none =>
      if d.source.length ≤ d.pos then
        if d.eofDone then (.Finish, d) else (.Continue, d.reachEof)
      else if d.currentlyActive then
        d.lexHere logos
      else
        (.Continue, d.advanceToNextLineStart.invalidateLexer)

/- One turn of the loop in `DriverCore::next`. -/
def iterate
    (logos : Logos)
    (d : DriverCore) :
    Turn × DriverCore :=
  match d.pending with
  | item :: rest => (.Yield item, { d with pending := rest })
  | [] => d.work logos

end DriverCore

/- The driver with what it has yielded. -/
structure Config where
  core : DriverCore
  emitted : List CoreItem
  finished : Bool

/- The configuration after a turn. -/
def Config.after
    (c : Config)
    (turn : Turn × DriverCore) :
    Config :=
  match turn with
  | (.Yield item, d) => ⟨d, c.emitted ++ [item], c.finished⟩
  | (.Continue, d) => ⟨d, c.emitted, c.finished⟩
  | (.Finish, d) => ⟨d, c.emitted, true⟩

def Config.step
    (logos : Logos)
    (c : Config) :
    Except Empty Config :=
  .ok (c.after (c.core.iterate logos))

/- The iterator, turn by turn. -/
def driverMachine
    (logos : Logos) :
    Machine Config Empty where
  step := Config.step logos
  done := Config.finished

/- The configuration before the first turn. -/
def Config.initial
    (source : List UInt8)
    (symbols : List UInt8 → Bool)
    (triviaMode : Bool) :
    Config :=
  ⟨.new source symbols triviaMode, [], false⟩

/- A lexed token or an error, `none` for a marker. -/
def CoreItem.lexed
    (item : CoreItem) :
    Option DriverItem :=
  match item.result with
  | .ok (.Lexed token) => some ⟨.ok token, item.span⟩
  | .ok _ => none
  | .error e => some ⟨.error e, item.span⟩

/- Whether the item stands for its bytes of the source. -/
def CoreItem.coversSource
    (item : CoreItem) :
    Bool :=
  match item.result with
  | .ok _ => true
  | .error (.Lex _) => true
  | .error _ => false

end Directives

end Borzoi
