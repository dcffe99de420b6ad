import Borzoi.Directives.Expr
import Borzoi.Lexer.Token
import Mathlib.Algebra.GroupWithZero.Nat

/-
  The recogniser of directive lines.

  The warning numbers of `#nowarn` and `#warnon` are left out: nothing
  here reads them.
-/

namespace Borzoi

namespace Directives

open Lexer

inductive Directive
  | If (e : Expr)
  | Elif (e : Expr)
  | Else
  | EndIf
  | NoWarn
  | WarnOn
  | Line (number : Nat) (file : Option (List UInt8))
  deriving DecidableEq, Repr

/- The keywords of conditional compilation. -/
inductive DirectiveKind
  | If
  | Elif
  | Else
  | EndIf
  deriving DecidableEq, Repr

namespace Directive

def kind
    (d : Directive) :
    Option DirectiveKind :=
  match d with
  | .If _ => some .If
  | .Elif _ => some .Elif
  | .Else => some .Else
  | .EndIf => some .EndIf
  | .NoWarn | .WarnOn | .Line _ _ => none

end Directive

structure Recognised where
  directive : Directive
  range : Span
  deriving DecidableEq, Repr

inductive DirectiveErrorKind
  | MissingSeparator
  | MissingExpression
  | ExpressionParse (e : ParseError)
  | UnexpectedTokensAfterDirective
  deriving DecidableEq, Repr

structure DirectiveError where
  keyword : DirectiveKind
  kind : DirectiveErrorKind
  range : Span
  deriving DecidableEq, Repr

/- The bytes that end a line. -/
def isLineBreak
    (b : UInt8) :
    Bool :=
  b == byte '\n' || b == byte '\r'

/- The bytes of an ASCII text. -/
def ascii
    (text : String) :
    List UInt8 :=
  text.toList.map byte

/- The UTF-8 encoding of U+FEFF. -/
def bom : List UInt8 := [0xEF, 0xBB, 0xBF]

/- The place of the first line break at or behind `lineStart`. -/
def lineEndAt
    (source : List UInt8)
    (lineStart : Nat) :
    Nat :=
  scanWhile (fun b => !isLineBreak b) source lineStart source.length

/- Whether a line may start at `pos`. -/
def followsLineBreak
    (source : List UInt8)
    (pos : Nat) :
    Bool :=
  pos == 0 || source[pos - 1]?.any isLineBreak

/- `parse_line_number`: zero where `i32` overflows. -/
def parseLineNumber
    (digits : List UInt8) :
    Nat :=
  let n := digits.foldl (fun acc d => 10 * acc + (d.toNat - 48)) 0
  if n < 2 ^ 31 then n else 0

/- `line_directive_tail`: `none` when the tail does not match. -/
def lineDirectiveTail
    (source : List UInt8)
    (pos lineEnd : Nat) :
    Option (Option (List UInt8)) :=
  let saved := scanWhile isBlank source pos lineEnd
  let quoteAt := if saved < lineEnd ∧ source[saved]? = some (byte '@') then
    saved + 1 else saved
  let quoted : Option (Option (List UInt8) × Nat) :=
    if quoteAt < lineEnd ∧ source[quoteAt]? = some (byte '"') then
      let bodyStart := quoteAt + 1
      let stop := scanWhile (fun b => b != byte '"') source bodyStart
        lineEnd
      if stop = bodyStart ∨ lineEnd ≤ stop then
        none
      else
        some (some (slice source bodyStart stop), stop + 1)
    else if quoteAt ≠ saved then
      none
    else
      some (none, quoteAt)
  match quoted with
  | none => none
  | some (file, pos) =>
      if scanWhile isBlank source pos lineEnd ≠ lineEnd then
        none
      else if source[lineEnd]? = some (byte '\n') then
        some file
      else if source[lineEnd]? = some (byte '\r') ∧
          source[lineEnd + 1]? = some (byte '\n') then
        some file
      else
        none

/- What the recogniser returns. -/
abbrev Recognition := Option (Except DirectiveError Recognised)

/- The digits and the tail of a `#line`, from `pos` on. -/
def recogniseLineNumber
    (source : List UInt8)
    (lineStart lineEnd pos : Nat) :
    Recognition :=
  let digitStart := scanWhile isBlank source pos lineEnd
  let stop := scanWhile isAsciiDigit source digitStart lineEnd
  if stop = digitStart then
    none
  else
    match lineDirectiveTail source stop lineEnd with
    | none => none
    | some file =>
        some (.ok
          ⟨.Line (parseLineNumber (slice source digitStart stop)) file,
            ⟨lineStart, lineEnd⟩⟩)

/- The `#if` and `#elif` arm, with the keyword ending at `pos`. -/
def recogniseCondition
    (source : List UInt8)
    (lineStart lineEnd pos : Nat)
    (keyword : DirectiveKind)
    (directive : Expr → Directive) :
    Recognition :=
  let bodyStart := scanWhile isBlank source pos lineEnd
  if bodyStart = pos then
    some (.error ⟨keyword, .MissingSeparator, ⟨lineStart, pos⟩⟩)
  else
    let body := slice source bodyStart lineEnd
    match parseIfExpr body with
    | .ok expr => some (.ok ⟨directive expr, ⟨lineStart, lineEnd⟩⟩)
    | .error e =>
        let kind := if body = [] ∨ (ascii "//").isPrefixOf body then
          DirectiveErrorKind.MissingExpression
        else
          .ExpressionParse e
        some (.error ⟨keyword, kind, ⟨lineStart, lineEnd⟩⟩)

/- The `#else` and `#endif` arm, with the keyword ending at `pos`. -/
def recogniseBare
    (source : List UInt8)
    (lineStart lineEnd pos : Nat)
    (keyword : DirectiveKind)
    (directive : Directive) :
    Recognition :=
  let trailing := slice source (scanWhile isBlank source pos lineEnd)
    lineEnd
  if trailing = [] ∨ (ascii "//").isPrefixOf trailing then
    some (.ok ⟨directive, ⟨lineStart, lineEnd⟩⟩)
  else
    some (.error ⟨keyword, .UnexpectedTokensAfterDirective,
      ⟨lineStart, lineEnd⟩⟩)

/- Bytes that continue an identifier behind a keyword. -/
def continuesKeyword
    (b : UInt8) :
    Bool :=
  isAsciiDigit b || b == byte '_' || b == byte '\'' || 0x80 ≤ b

/- The recogniser behind the `#`, which `pos` follows. -/
def recogniseKeyword
    (source : List UInt8)
    (lineStart lineEnd pos : Nat) :
    Recognition :=
  let rest := slice source pos lineEnd
  if (ascii "nowarn").isPrefixOf rest then
    some (.ok ⟨.NoWarn, ⟨lineStart, lineEnd⟩⟩)
  else if (ascii "warnon").isPrefixOf rest then
    some (.ok ⟨.WarnOn, ⟨lineStart, lineEnd⟩⟩)
  else
    let stop := scanWhile isAsciiAlphabetic source pos lineEnd
    let keyword := slice source pos stop
    if keyword = [] then
      recogniseLineNumber source lineStart lineEnd stop
    else if stop < lineEnd ∧ source[stop]?.any continuesKeyword then
      none
    else if keyword = ascii "if" then
      recogniseCondition source lineStart lineEnd stop .If .If
    else if keyword = ascii "elif" then
      recogniseCondition source lineStart lineEnd stop .Elif .Elif
    else if keyword = ascii "else" then
      recogniseBare source lineStart lineEnd stop .Else .Else
    else if keyword = ascii "endif" then
      recogniseBare source lineStart lineEnd stop .EndIf .EndIf
    else if keyword = ascii "line" then
      if scanWhile isBlank source stop lineEnd = stop then
        none
      else
        recogniseLineNumber source lineStart lineEnd stop
    else
      none

/- The place behind a byte order mark at the start of the source. -/
def skipBom
    (source : List UInt8)
    (lineStart lineEnd : Nat) :
    Nat :=
  if lineStart = 0 ∧ bom.isPrefixOf source ∧ bom.length ≤ lineEnd then
    bom.length
  else
    lineStart

/- `recognise_directive`. -/
def recogniseDirective
    (source : List UInt8)
    (lineStart : Nat) :
    Recognition :=
  if source.length < lineStart then
    none
  else if followsLineBreak source lineStart = false then
    none
  else
    let lineEnd := lineEndAt source lineStart
    let pos := scanWhile isBlank source
      (skipBom source lineStart lineEnd) lineEnd
    if lineEnd ≤ pos ∨ source[pos]? ≠ some (byte '#') then
      none
    else
      recogniseKeyword source lineStart lineEnd (pos + 1)

/- The range of a recognised or malformed directive. -/
def rangeOf
    (result : Except DirectiveError Recognised) :
    Span :=
  match result with
  | .ok r => r.range
  | .error e => e.range

section Ranges

variable {source : List UInt8} {lineStart lineEnd pos : Nat}
variable {result : Except DirectiveError Recognised}

theorem le_scanWhile
    (p : UInt8 → Bool)
    (bytes : List UInt8)
    (pos stop : Nat) :
    pos ≤ scanWhile p bytes pos stop :=
  Nat.le_add_right _ _

theorem scanWhile_le
    {p : UInt8 → Bool}
    {bytes : List UInt8}
    {pos stop : Nat}
    (hLe : pos ≤ stop) :
    scanWhile p bytes pos stop ≤ stop := by
  unfold scanWhile
  have hTake : (((bytes.drop pos).take (stop - pos)).takeWhile
      p).length ≤ ((bytes.drop pos).take (stop - pos)).length :=
    (List.takeWhile_sublist _).length_le
  have hLength : ((bytes.drop pos).take (stop - pos)).length ≤
      stop - pos := List.length_take_le _ _
  omega

/- A range from the line's start to a place behind its `#`. -/
def InLine
    (lineStart lineEnd : Nat)
    (range : Span) :
    Prop :=
  range.start = lineStart ∧ lineStart < range.stop ∧
    range.stop ≤ lineEnd

theorem recogniseLineNumber_range
    (hIn : lineStart < lineEnd)
    (hSome : recogniseLineNumber source lineStart lineEnd pos =
      some result) :
    InLine lineStart lineEnd (rangeOf result) := by
  unfold recogniseLineNumber at hSome
  dsimp only at hSome
  split at hSome
  · cases hSome
  · split at hSome
    · cases hSome
    · cases hSome
      exact ⟨rfl, hIn, Nat.le_refl _⟩

variable {keyword : DirectiveKind}

theorem recogniseCondition_range
    {directive : Expr → Directive}
    (hIn : lineStart < pos)
    (hPos : pos ≤ lineEnd)
    (hSome : recogniseCondition source lineStart lineEnd pos keyword
      directive = some result) :
    InLine lineStart lineEnd (rangeOf result) := by
  have hWhole : lineStart < lineEnd := by omega
  unfold recogniseCondition at hSome
  dsimp only at hSome
  split at hSome
  · cases hSome
    exact ⟨rfl, hIn, hPos⟩
  · split at hSome
    · cases hSome
      exact ⟨rfl, hWhole, Nat.le_refl _⟩
    · cases hSome
      exact ⟨rfl, hWhole, Nat.le_refl _⟩

theorem recogniseBare_range
    {directive : Directive}
    (hIn : lineStart < lineEnd)
    (hSome : recogniseBare source lineStart lineEnd pos keyword
      directive = some result) :
    InLine lineStart lineEnd (rangeOf result) := by
  unfold recogniseBare at hSome
  dsimp only at hSome
  split at hSome
  · cases hSome
    exact ⟨rfl, hIn, Nat.le_refl _⟩
  · cases hSome
    exact ⟨rfl, hIn, Nat.le_refl _⟩

theorem recogniseKeyword_range
    (hIn : lineStart < pos)
    (hPos : pos ≤ lineEnd)
    (hSome : recogniseKeyword source lineStart lineEnd pos =
      some result) :
    InLine lineStart lineEnd (rangeOf result) := by
  have hWhole : lineStart < lineEnd := by omega
  have hFrom : pos ≤ scanWhile isAsciiAlphabetic source pos lineEnd :=
    le_scanWhile _ _ _ _
  have hTo : scanWhile isAsciiAlphabetic source pos lineEnd ≤ lineEnd :=
    scanWhile_le hPos
  have hKeyword : lineStart <
      scanWhile isAsciiAlphabetic source pos lineEnd := by omega
  unfold recogniseKeyword at hSome
  dsimp only at hSome
  split at hSome
  · cases hSome
    exact ⟨rfl, hWhole, Nat.le_refl _⟩
  split at hSome
  · cases hSome
    exact ⟨rfl, hWhole, Nat.le_refl _⟩
  split at hSome
  · exact recogniseLineNumber_range hWhole hSome
  split at hSome
  · cases hSome
  split at hSome
  · exact recogniseCondition_range hKeyword hTo hSome
  split at hSome
  · exact recogniseCondition_range hKeyword hTo hSome
  split at hSome
  · exact recogniseBare_range hWhole hSome
  split at hSome
  · exact recogniseBare_range hWhole hSome
  split at hSome
  · split at hSome
    · cases hSome
    · exact recogniseLineNumber_range hWhole hSome
  · cases hSome

theorem le_skipBom :
    lineStart ≤ skipBom source lineStart lineEnd := by
  unfold skipBom
  split
  · next hMark =>
      rw [hMark.1]
      exact Nat.zero_le _
  · exact Nat.le_refl _

/- A directive covers its line from the start, and is not empty. -/
theorem recogniseDirective_range
    (hSome : recogniseDirective source lineStart = some result) :
    InLine lineStart source.length (rangeOf result) := by
  unfold recogniseDirective at hSome
  split at hSome
  · cases hSome
  next hLength =>
    split at hSome
    · cases hSome
    dsimp only at hSome
    split at hSome
    · cases hSome
    next hHash =>
      have hEnd : lineEndAt source lineStart ≤ source.length :=
        scanWhile_le (Nat.le_of_not_lt hLength)
      rw [not_or, Nat.not_le] at hHash
      have hSkip : lineStart ≤ skipBom source lineStart
          (lineEndAt source lineStart) := le_skipBom
      have hStart := le_scanWhile isBlank source
        (skipBom source lineStart (lineEndAt source lineStart))
        (lineEndAt source lineStart)
      have hRange := recogniseKeyword_range (by omega) (by omega) hSome
      exact ⟨hRange.1, hRange.2.1, Nat.le_trans hRange.2.2 hEnd⟩

end Ranges

end Directives

end Borzoi
