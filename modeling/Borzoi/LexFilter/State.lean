import Borzoi.LexFilter.Syntax
import Mathlib.Algebra.GroupWithZero.Nat

/-
  The state of the offside filter and its two token queues.

  The source is a list of bytes.  Tokens come from the raw stream
  through `pullRaw`, which moves the line cursor, and can be put back
  on the delayed stack.  Every partial operation of the source
  (slicing, lookups, unsigned subtraction) fails here with a `Panic`.
-/

namespace Borzoi

namespace LexFilter

open Lexer

/-
  The failure points of the filter.  `LoopBound` is a lookahead loop
  that runs past the bound the model gives it.
-/
inductive Panic
  | SourceSlice
  | SubtractOverflow
  | IndexOutOfBounds
  | LineStartMissing
  | UnreachableArm
  | ExpectFailed
  | DummyEscaped
  | CascadeWithoutMemberBody
  | LoopBound
  deriving DecidableEq, Repr

/-
  An entry of the delayed stack.  `passThrough` is a ghost: it marks
  the entries queued by `delay_token_no_processing`.
-/
structure Delayed where
  tup : TokenTup
  passThrough : Bool
  deriving DecidableEq, Repr

/-
  The part of the filter state no language version decides.  Both
  stacks are listed top first.  `undentationSkip` holds indices from
  the bottom, with `none` for the source's `u32::MAX`.
-/
structure Core where
  raw : List RawItem
  source : List UInt8
  delayed : List Delayed
  offsideStack : List Context
  undentationSkip : List (Option Nat)
  initialized : Bool
  eofPulled : Bool
  curLine : Nat
  curLineStartByte : Nat
  lineStarts : List (Nat × Nat)
  lastByte : Nat
  parenDepth : Nat
  lastRealEnd : Nat
  lastRealWasAtomicEnd : Bool
  tokensThatNeedNoProcessing : Nat
  shapeDependsOnLanguageVersion : Bool
  pushes : Option (List ContextPush)

/- The filter state. -/
structure Filter extends Core where
  strictIndentationIsError : Bool
  reportsInvalidDeclsInType : Bool
  diagnostics : List OffsideDiagnostic

/- The byte of `\n`. -/
def newlineByte : UInt8 := 10

/- The UTF-8 encoding of U+FEFF. -/
def byteOrderMark : List UInt8 := [0xEF, 0xBB, 0xBF]

/- Whether a byte continues a UTF-8 sequence. -/
def isContinuationByte
    (b : UInt8) :
    Bool :=
  0x80 ≤ b && b < 0xC0

/- `str::is_char_boundary`. -/
def isCharBoundary
    (source : List UInt8)
    (i : Nat) :
    Bool :=
  i == 0 ||
    match source[i]? with
    | some b => !isContinuationByte b
    | none => i == source.length

/- `&source[a..b]`. -/
def sliceSource
    (source : List UInt8)
    (a b : Nat) :
    Except Panic (List UInt8) :=
  if a ≤ b ∧ isCharBoundary source a ∧ isCharBoundary source b then
    .ok ((source.drop a).take (b - a))
  else
    .error .SourceSlice

/- The last place of a byte in a slice. -/
def rfindByte
    (b : UInt8) :
    List UInt8 → Option Nat
  | [] => none
  | x :: xs =>
      match rfindByte b xs with
      | some i => some (i + 1)
      | none => if x = b then some 0 else none

/- The UTF-16 length of a UTF-8 slice: four-byte leads count twice. -/
def utf16Length
    (bytes : List UInt8) :
    Nat :=
  (bytes.map fun b =>
    if isContinuationByte b then 0
    else if 0xF0 ≤ b then 2
    else 1).sum

/- Unsigned subtraction, which panics below zero. -/
def checkedSub
    (a b : Nat) :
    Except Panic Nat :=
  if b ≤ a then .ok (a - b) else .error .SubtractOverflow

/- Trivia the filter skips. -/
def isTriviaReal
    (token : Token) :
    Bool :=
  match token with
  | .Whitespace | .Newline | .LineComment | .BlockComment => true
  | _ => false

namespace Core

/-
  Move the line cursor to byte `target`.  Only the last line a segment
  reaches is recorded in `lineStarts`.
-/
def advanceCursorTo
    (s : Core)
    (target : Nat) :
    Except Panic (Pos × Core) :=
  match sliceSource s.source s.lastByte target with
  | .error e => .error e
  | .ok seg =>
      let newlines := seg.count newlineByte
      let moved :=
        match rfindByte newlineByte seg with
        | none => s
        | some i =>
            let lineStart := s.lastByte + i + 1
            let line := s.curLine + newlines
            { s with
              curLineStartByte := lineStart
              curLine := line
              lineStarts := s.lineStarts ++ [(line, lineStart)] }
      let after := { moved with lastByte := target }
      .ok
        (⟨after.curLine, target - after.curLineStartByte⟩, after)

/- Move the cursor across a span and return its two positions. -/
def advanceAcross
    (s : Core)
    (span : Span) :
    Except Panic (Pos × Pos × Core) :=
  match s.advanceCursorTo span.start with
  | .error e => .error e
  | .ok (start, s₁) =>
      match s₁.advanceCursorTo span.stop with
      | .error e => .error e
      | .ok (stop, s₂) => .ok (start, stop, s₂)

/- The content of a raw item, or `none` for trivia. -/
def contentOf
    (item : RawItem) :
    Option TokenContent :=
  match item.result with
  | .ok token => if isTriviaReal token then none else some (.Real token)
  | .error e => some (.Err e)

/- The synthetic end-of-file token. -/
def eofTup
    (s : Core)
    (pos : Pos) :
    TokenTup :=
  ⟨.Eof, ⟨s.source.length, s.source.length⟩, pos, pos⟩

/- Pull the next token from the items `raw`, skipping trivia. -/
def pullRawFrom
    (s : Core)
    (raw : List RawItem) :
    Except Panic (Option TokenTup × Core) :=
  match raw with
  | [] =>
      if s.eofPulled then
        .ok (none, { s with raw := [] })
      else
        match s.advanceCursorTo s.source.length with
        | .error e => .error e
        | .ok (pos, s₁) =>
            .ok (some (s.eofTup pos),
              { s₁ with raw := [], eofPulled := true })
  | item :: rest =>
      match s.advanceAcross item.span with
      | .error e => .error e
      | .ok (start, stop, s₁) =>
          match contentOf item with
          | none => s₁.pullRawFrom rest
          | some content =>
              .ok (some ⟨content, item.span, start, stop⟩,
                { s₁ with raw := rest })

/- `pull_raw`. -/
def pullRaw
    (s : Core) :
    Except Panic (Option TokenTup × Core) :=
  s.pullRawFrom s.raw

/- `delay_token`. -/
def delayToken
    (s : Core)
    (tt : TokenTup) :
    Core :=
  { s with delayed := ⟨tt, false⟩ :: s.delayed }

/- `delay_token_no_processing`. -/
def delayTokenNoProcessing
    (s : Core)
    (tt : TokenTup) :
    Core :=
  { s with
    delayed := ⟨tt, true⟩ :: s.delayed
    tokensThatNeedNoProcessing :=
      s.tokensThatNeedNoProcessing + 1 }

/- `pop_next_token_tup`. -/
def popNextTokenTup
    (s : Core) :
    Except Panic (Option TokenTup × Core) :=
  match s.delayed with
  | d :: rest => .ok (some d.tup, { s with delayed := rest })
  | [] => s.pullRaw

/- `peek_next_token_tup`. -/
def peekNextTokenTup
    (s : Core) :
    Except Panic (Option TokenTup × Core) :=
  match s.delayed with
  | d :: _ => .ok (some d.tup, s)
  | [] =>
      match s.pullRaw with
      | .error e => .error e
      | .ok (none, s₁) => .ok (none, s₁)
      | .ok (some fresh, s₁) => .ok (some fresh, s₁.delayToken fresh)

/- A bound on the tokens left to pop, the end of file included. -/
def tokensLeft
    (s : Core) :
    Nat :=
  s.delayed.length + s.raw.length + 2

end Core

/- Where the columns of line one start: past a byte order mark. -/
def initialLineStart
    (source : List UInt8) :
    Nat :=
  if byteOrderMark.isPrefixOf source then byteOrderMark.length else 0

/- `Filter::new`. -/
def Filter.new
    (source : List UInt8)
    (lang : LanguageVersion)
    (raw : List RawItem) :
    Filter where
  raw := raw
  source := source
  delayed := []
  offsideStack := []
  undentationSkip := []
  initialized := false
  eofPulled := false
  curLine := 1
  curLineStartByte := initialLineStart source
  lineStarts := [(1, initialLineStart source)]
  lastByte := 0
  parenDepth := 0
  lastRealEnd := 0
  lastRealWasAtomicEnd := false
  tokensThatNeedNoProcessing := 0
  shapeDependsOnLanguageVersion := false
  pushes := none
  strictIndentationIsError := lang.strictIndentationIsError
  reportsInvalidDeclsInType :=
    lang.reportsInvalidDeclsInTypeDefinitions
  diagnostics := []

end LexFilter

end Borzoi
