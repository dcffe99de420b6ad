import Borzoi.Cst.Cursor
import Mathlib.Data.List.Sort

/-
  The parse.

  The preprocessor and the filter make the tokens, the productions make
  the tree, and the diagnostics of all of them are merged in source
  order.  The productions are a parameter: a function of the file kind,
  the source, the raw and the filtered tokens.
-/

namespace Borzoi

namespace LexFilter

namespace LanguageVersion

def MIN : LanguageVersion := .V4_6

def MAX : LanguageVersion := .Preview

def supportsPreprocessorElif
    (version : LanguageVersion) :
    Bool :=
  V11_0.rank ≤ version.rank

/- How a version prints itself. -/
def text
    (version : LanguageVersion) :
    String :=
  match version with
  | .V4_6 => "4.6"
  | .V4_7 => "4.7"
  | .V5_0 => "5.0"
  | .V6_0 => "6.0"
  | .V7_0 => "7.0"
  | .V8_0 => "8.0"
  | .V9_0 => "9.0"
  | .V10_0 => "10.0"
  | .V11_0 => "11.0"
  | .Preview => "preview"

end LanguageVersion

def NestedDeclKeyword.message
    (keyword : NestedDeclKeyword) :
    String :=
  match keyword with
  | .TypeKw =>
      "Nested type definitions are not allowed. Types must be defined at " ++
        "module or namespace level."
  | .Module =>
      "Modules cannot be nested inside types. Define modules at module or " ++
        "namespace level."
  | .Exception =>
      "Exceptions must be defined at module level, not inside types."

def OffsideMessage.text
    (message : OffsideMessage) :
    String :=
  match message with
  | .Undentation line utf16Col =>
      "Unexpected syntax or possible incorrect indentation: this token is " ++
        "offside of context started at position (" ++ toString line ++ ":" ++
        toString utf16Col ++ "). Try indenting this further.\nTo continue " ++
        "using non-conforming indentation, pass the " ++
        "'--strict-indentation-' flag to the compiler, or set the language " ++
        "version to F# 7."
  | .NestedDecl keyword => keyword.message

end LexFilter

namespace Directives

/- How the condition parser's error prints itself. -/
def ParseError.text
    (debugChar : List UInt8 → String)
    (e : ParseError) :
    String :=
  match e.kind with
  | .UnexpectedEof => "unexpected end of input at byte " ++ toString e.pos
  | .UnexpectedToken => "unexpected token at byte " ++ toString e.pos
  | .UnclosedParen => "unclosed `(` at byte " ++ toString e.pos
  | .UnexpectedTrailingTokens =>
      "unexpected trailing tokens at byte " ++ toString e.pos
  | .InvalidChar c =>
      "invalid character " ++ debugChar c ++ " at byte " ++ toString e.pos
  | .BlockCommentNotAllowed =>
      "`(* ... *)` block comment not allowed at byte " ++ toString e.pos

/- `directive_error_message`. -/
def directiveErrorMessage
    (debugChar : List UInt8 → String)
    (e : DirectiveError) :
    String :=
  match e.kind with
  | .MissingSeparator =>
      "malformed directive: whitespace is required before the condition"
  | .MissingExpression => "malformed directive: missing condition"
  | .ExpressionParse e =>
      "malformed directive condition: " ++ e.text debugChar
  | .UnexpectedTokensAfterDirective =>
      "malformed directive: unexpected tokens after the directive"

/- `lex_error_message`. -/
def lexErrorMessage
    (e : Lexer.LexError) :
    String :=
  match e with
  | .UnterminatedString => "unterminated string literal"
  | .UnterminatedComment => "unterminated block comment"
  | .Unknown => "unrecognised token"

def PreprocError.diagnosticMessage
    (debugChar : List UInt8 → String)
    (e : PreprocError) :
    String :=
  match e with
  | .Lex e => lexErrorMessage e
  | .Directive e => directiveErrorMessage debugChar e
  | .UnmatchedEndIf _ => "`#endif` with no matching `#if`"
  | .OrphanElse _ => "`#else` with no matching `#if`"
  | .OrphanElif _ => "`#elif` with no matching `#if`"
  | .DoubleElse _ _ =>
      "`#else` after a previous `#else` in the same `#if` chain"
  | .ElifAfterElse _ _ => "`#elif` after `#else` in the same `#if` chain"
  | .UnclosedIfAtEof _ _ => "`#if` without matching `#endif`"

def PreprocError.reportingSpan
    (e : PreprocError)
    (pairedSpan : Lexer.Span) :
    Lexer.Span :=
  match e with
  | .UnclosedIfAtEof ifSpan _ => ifSpan
  | _ => pairedSpan

end Directives

namespace Cst

open Directives
open LexFilter
open Lexer

def tab : UInt8 := byte '\t'

/- The runs of tabs; `opened` is where the run at hand starts. -/
def tabRuns :
    List UInt8 → Nat → Option Nat → List Span
  | [], i, some start => [⟨start, i⟩]
  | [], _, none => []
  | b :: rest, i, some start =>
      if b = tab then
        tabRuns rest (i + 1) (some start)
      else
        ⟨start, i⟩ :: tabRuns rest (i + 1) none
  | b :: rest, i, none =>
      if b = tab then
        tabRuns rest (i + 1) (some i)
      else
        tabRuns rest (i + 1) none

/- `whitespace_on_directive_line`. -/
def whitespaceOnDirectiveLine
    (source : List UInt8)
    (wsStart : Nat) :
    Bool :=
  let before := source.take wsStart
  let lineStart :=
    match rfindByte newlineByte before with
    | some i => i + 1
    | none => 0
  let line := (source.drop lineStart).dropWhile isBlank
  line.head? == some (byte '#')

def tabDiagnosticsAt
    (source : List UInt8)
    (item : CoreItem) :
    List ParseError :=
  match item.result with
  | .ok (.Lexed .Whitespace) =>
      if whitespaceOnDirectiveLine source item.span.start then
        []
      else
        (tabRuns (slice source item.span.start item.span.stop)
          item.span.start none).map fun span =>
            ⟨"TABs are not allowed in F# code", span⟩
  | _ => []

/- `tab_diagnostics`. -/
def tabDiagnostics
    (source : List UInt8)
    (rawTokens : List CoreItem) :
    List ParseError :=
  rawTokens.flatMap (tabDiagnosticsAt source)

/- Whether the operator is checked for the dollar sign only. -/
def greaterHeaded
    (op : List Char) :
    Bool :=
  (op.dropWhile fun c => c == '.' || c == '?').head? == some '>'

def operatorCharDiagnosticsAt
    (item : CoreItem) :
    List ParseError :=
  match item.result with
  | .ok (.Lexed (.Op op)) =>
      ([':', '$'].filter fun c =>
          op.contains c && !(c == ':' && greaterHeaded op)).map fun c =>
        ⟨"'" ++ c.toString ++ "' is not permitted as a character in " ++
          "operator names and is reserved for future use", item.span⟩
  | _ => []

/- `operator_char_diagnostics`. -/
def operatorCharDiagnostics
    (rawTokens : List CoreItem) :
    List ParseError :=
  rawTokens.flatMap operatorCharDiagnosticsAt

def RESERVED_IDENTS : List String :=
  ["break", "checked", "component", "constraint", "continue", "fori",
    "include", "mixin", "parallel", "params", "process", "protected", "pure",
    "sealed", "tailcall", "trait", "virtual"]

def isReservedIdent
    (word : List Char) :
    Bool :=
  RESERVED_IDENTS.contains (String.ofList word)

/- What is glued to the end of an identifier. -/
inductive GluedSuffix
  | Hash
  | Bang (stop : Nat)
  deriving DecidableEq, Repr

/- `glued_ident_suffix`, on the tokens behind the identifier. -/
def gluedIdentSuffix
    (behind : List CoreItem)
    (identEnd : Nat) :
    Option GluedSuffix :=
  match behind with
  | [] => none
  | next :: _ =>
      if next.span.start ≠ identEnd then
        none
      else
        match next.result with
        | .ok (.Lexed .Hash) => some .Hash
        | .ok (.Lexed (.Op op)) =>
            if op.head? = some '!' then
              some (.Bang (next.span.start + 1))
            else
              none
        | _ => none

def reservedText
    (word : List Char) :
    String :=
  "The identifier '" ++ String.ofList word ++
    "' is reserved for future use by F#"

/- `reserved_ident_diagnostics`. -/
def reservedIdentDiagnostics :
    List CoreItem → List ParseError
  | [] => []
  | item :: rest =>
      let here : List ParseError :=
        match item.result with
        | .ok (.Lexed (.Ident word)) =>
            if isReservedIdent word then
              match gluedIdentSuffix rest item.span.stop with
              | some .Hash => []
              | some (.Bang stop) =>
                  [⟨reservedText word, ⟨item.span.start, stop⟩⟩]
              | none => [⟨reservedText word, item.span⟩]
            else
              []
        | _ => []
      here ++ reservedIdentDiagnostics rest

/- `rebuild_signed_literal`. -/
def rebuildSignedLiteral
    (lit : Token)
    (merged : List Char) :
    Option Token :=
  let signed (text : List Char) : Bool :=
    !(text.contains 'u' || text.contains 'U')
  match lit with
  | .Int _ => some (.Int merged)
  | .XInt _ => some (.XInt merged)
  | .Float64 _ => some (.Float64 merged)
  | .Float32 _ => some (.Float32 merged)
  | .XIEEE64 _ => some (.XIEEE64 merged)
  | .XIEEE32 _ => some (.XIEEE32 merged)
  | .Decimal _ => some (.Decimal merged)
  | .BigNum _ => some (.BigNum merged)
  | .IntSuffixed text =>
      if signed text then some (.IntSuffixed merged) else none
  | .XIntSuffixed text =>
      if signed text then some (.XIntSuffixed merged) else none
  | _ => none

/- `raw_significant`. -/
def rawSignificant
    (item : CoreItem) :
    Option Token :=
  match item.result with
  | .ok (.Lexed token) => if triviaKind token = none then some token else none
  | _ => none

/- `glued_to_atomic_end`.  The raw tokens are in order of their ends. -/
def gluedToAtomicEnd
    (rawTokens : List CoreItem)
    (opSpan : Span) :
    Bool :=
  let before := rawTokens.takeWhile fun item => item.span.stop ≤ opSpan.start
  match before.reverse.find? fun item => (rawSignificant item).isSome with
  | some item =>
      item.span.stop == opSpan.start &&
        (rawSignificant item).any isAtomicExprEnd
  | none => false

/- `&source[start..stop]` as text. -/
def sourceText
    (source : List UInt8)
    (start stop : Nat) :
    Except Panic (List Char) :=
  match sliceSource source start stop with
  | .error e => .error e
  | .ok bytes =>
      match String.fromUTF8? ⟨bytes.toArray⟩ with
      | some text => .ok text.toList
      | none => .error .SourceSlice

/- `try_fold`. -/
def tryFold
    (source : List UInt8)
    (rawTokens : List CoreItem)
    (op lit : FilteredItem) :
    Except Panic (Option FilteredItem) :=
  match op.result, lit.result with
  | .ok (.Raw (.Op opText)), .ok (.Raw litTok) =>
      if opText ≠ ['-'] ∧ opText ≠ ['+'] then
        .ok none
      else if lit.span.start ≠ op.span.stop then
        .ok none
      else
        match sourceText source op.span.start lit.span.stop with
        | .error e => .error e
        | .ok merged =>
            match rebuildSignedLiteral litTok merged with
            | none => .ok none
            | some token =>
                if gluedToAtomicEnd rawTokens op.span then
                  .ok none
                else
                  .ok (some ⟨.ok (.Raw token),
                    ⟨op.span.start, lit.span.stop⟩⟩)
  | _, _ => .ok none

/- `fold_adjacent_signs`. -/
def foldAdjacentSigns
    (source : List UInt8)
    (rawTokens : List CoreItem) :
    List FilteredItem → Except Panic (List FilteredItem)
  | [] => .ok []
  | [item] => .ok [item]
  | op :: lit :: rest =>
      match tryFold source rawTokens op lit with
      | .error e => .error e
      | .ok (some merged) =>
          (foldAdjacentSigns source rawTokens rest).map (merged :: ·)
      | .ok none =>
          (foldAdjacentSigns source rawTokens (lit :: rest)).map (op :: ·)

------------------------------------------------------------
-- Version Gates
------------------------------------------------------------

inductive SyntaxTree
  | token (kind : SyntaxKind) (text : List UInt8)
  | node (kind : SyntaxKind) (children : List SyntaxTree)

mutual

def SyntaxTree.width : SyntaxTree → Nat
  | .token _ text => text.length
  | .node _ children => widthOfAll children

def widthOfAll : List SyntaxTree → Nat
  | [] => 0
  | child :: rest => child.width + widthOfAll rest

end

mutual

/- The nodes of a tree, each before its children, with their ranges. -/
def SyntaxTree.descendants : SyntaxTree → Nat → List (SyntaxKind × Span)
  | .token _ _, _ => []
  | .node kind children, start =>
      (kind, ⟨start, start + widthOfAll children⟩) ::
        descendantsOfAll children start

def descendantsOfAll :
    List SyntaxTree → Nat → List (SyntaxKind × Span)
  | [], _ => []
  | child :: rest, start =>
      child.descendants start ++
        descendantsOfAll rest (start + child.width)

end

/- The `introduced` of `kind_interval`; no kind is removed. -/
def introducedAt
    (kind : SyntaxKind) :
    Option LanguageVersion :=
  match kind with
  | .WITH_NULL_TYPE => some .V9_0
  | _ => none

/- `feature_name_for_kind`. -/
def featureNameForKind
    (kind : SyntaxKind) :
    Option String :=
  match kind with
  | .WITH_NULL_TYPE => some "nullness checking"
  | _ => none

/- The text of FS3350. -/
def featureText
    (feature lang introduced : String) :
    String :=
  "Feature '" ++ feature ++ "' is not available in F# " ++ lang ++
    ". Please use language version " ++ introduced ++ " or greater."

/- `langversion_diagnostics`. -/
def langversionDiagnostics
    (elifDirectives : List Span)
    (lang : LanguageVersion) :
    List ParseError :=
  if lang.supportsPreprocessorElif then
    []
  else
    elifDirectives.map fun span =>
      ⟨featureText "#elif preprocessor directive" lang.text "11.0", span⟩

def nodeSurfaceDiagnostic
    (lang : LanguageVersion)
    (kind : SyntaxKind)
    (range : Span) :
    Option ParseError :=
  match introducedAt kind with
  | none => none
  | some introduced =>
      if introduced.rank ≤ lang.rank then
        none
      else
        match featureNameForKind kind with
        | none => none
        | some feature =>
            some ⟨featureText feature lang.text introduced.text, range⟩

/- `node_surface_diagnostics`. -/
def nodeSurfaceDiagnostics
    (root : SyntaxTree)
    (lang : LanguageVersion) :
    List ParseError :=
  (root.descendants 0).filterMap fun node =>
    nodeSurfaceDiagnostic lang node.1 node.2

inductive FileKind
  | Impl
  | Sig
  deriving DecidableEq, Repr

/- What the productions leave in the parser. -/
structure Produced where
  root : SyntaxTree
  errors : List ParseError
  warnings : List ParseError
  depthLimitHit : Bool
  depthLimitSpan : Option Span

/- `parse_impl_file` and `parse_sig_file`. -/
abbrev Productions :=
  FileKind → List UInt8 → List CoreItem → List FilteredItem →
    Except Panic Produced

structure Parse where
  root : SyntaxTree
  errors : List ParseError
  warnings : List ParseError
  lang : LanguageVersion
  shapeDependsOnLanguageVersion : Bool

/- `active_tokens`. -/
def activeTokens
    (raw : List CoreItem) :
    List RawItem :=
  raw.filterMap fun item =>
    match item.result with
    | .ok (.Lexed token) => some ⟨.ok token, item.span⟩
    | .error (.Lex e) => some ⟨.error e, item.span⟩
    | _ => none

/- The errors that are taken out of the raw tokens. -/
def directiveErrors
    (debugChar : List UInt8 → String)
    (items : List CoreItem) :
    List ParseError :=
  items.filterMap fun item =>
    match item.result with
    | .ok _ => none
    | .error (.Lex _) => none
    | .error e =>
        some ⟨e.diagnosticMessage debugChar, e.reportingSpan item.span⟩

def depthLimitText : String :=
  "expression, type, or pattern nesting is too deep; parsing stopped here"

def offsideError
    (diag : OffsideDiagnostic) :
    ParseError :=
  ⟨diag.message.text, diag.span⟩

/- The offside diagnostics of a severity. -/
def offsideErrors
    (diagnostics : List OffsideDiagnostic)
    (severity : OffsideSeverity) :
    List ParseError :=
  (diagnostics.filter fun diag => diag.severity == severity).map offsideError

/- `span_order`, as a comparison. -/
def spanLe
    (a b : ParseError) :
    Bool :=
  a.span.start < b.span.start ||
    (a.span.start == b.span.start && a.span.stop ≤ b.span.stop)

/- `sort_by(&span_order)`, a stable sort. -/
def sortBySpan
    (errors : List ParseError) :
    List ParseError :=
  errors.insertionSort fun a b => spanLe a b = true

section Parsing

variable (logos : Logos) (debugChar : List UInt8 → String)
variable (productions : Productions)

/- What the preprocessor yields, and where it saw `#elif`. -/
structure Preprocessed where
  items : List CoreItem
  elifDirectives : List Span

/- The full-trivia stream, given a bound on the turns. -/
def lexWithSymbolsFullTrivia
    (fuel : Nat)
    (source : List UInt8)
    (symbols : List UInt8 → Bool) :
    Option Preprocessed :=
  match (driverMachine logos).runFor fuel (.initial source symbols true) with
  | .ok c =>
      if c.finished then some ⟨c.emitted, c.core.elifDirectives⟩ else none
  | .error e => e.elim

/- The diagnostics of a parse whose productions have ended. -/
def finishParse
    (source : List UInt8)
    (pre : Preprocessed)
    (rawTokens : List CoreItem)
    (run : FilterRun)
    (lang : LanguageVersion)
    (produced : Produced) :
    Parse :=
  if produced.depthLimitHit then
    { root := produced.root
      errors := [⟨depthLimitText,
        produced.depthLimitSpan.getD ⟨0, source.length⟩⟩]
      warnings := []
      lang
      shapeDependsOnLanguageVersion := run.shapeDependsOnLanguageVersion }
  else
    { root := produced.root
      errors := sortBySpan (produced.errors ++
        directiveErrors debugChar pre.items ++
        tabDiagnostics source rawTokens ++
        operatorCharDiagnostics rawTokens ++
        langversionDiagnostics pre.elifDirectives lang ++
        nodeSurfaceDiagnostics produced.root lang ++
        offsideErrors run.diagnostics .Error)
      warnings := sortBySpan (produced.warnings ++
        reservedIdentDiagnostics rawTokens ++
        offsideErrors run.diagnostics .Warning)
      lang
      shapeDependsOnLanguageVersion := run.shapeDependsOnLanguageVersion }

/-
  `parse_inner`, given a bound on the turns of the preprocessor and the
  filter: `none` when the bound is reached.
-/
def parseInner
    (fuel : Nat)
    (source : List UInt8)
    (symbols : List UInt8 → Bool)
    (fileKind : FileKind)
    (lang : LanguageVersion) :
    Except Panic (Option Parse) :=
  match lexWithSymbolsFullTrivia logos fuel source symbols with
  | none => .ok none
  | some pre =>
      let rawTokens := pre.items.filter CoreItem.coversSource
      match filterCollect fuel source lang (activeTokens rawTokens) with
      | .error e => .error e
      | .ok none => .ok none
      | .ok (some run) =>
          match foldAdjacentSigns source rawTokens run.tokens with
          | .error e => .error e
          | .ok filtered =>
              match productions fileKind source rawTokens filtered with
              | .error e => .error e
              | .ok produced =>
                  .ok (some (finishParse debugChar source pre rawTokens run
                    lang produced))

/- The parse at a version, if it neither panics nor reaches the bound. -/
def parseAt
    (fuel : Nat)
    (source : List UInt8)
    (symbols : List UInt8 → Bool)
    (fileKind : FileKind)
    (lang : LanguageVersion) :
    Option Parse :=
  match parseInner logos debugChar productions fuel source symbols fileKind
      lang with
  | .ok result => result
  | .error _ => none

/- `diagnostics_are_version_invariant`. -/
def diagnosticsAreVersionInvariant
    (fuel : Nat)
    (source : List UInt8)
    (symbols : List UInt8 → Bool)
    (fileKind : FileKind) :
    Bool :=
  let parse := parseAt logos debugChar productions fuel source symbols
    fileKind
  match parse .MIN, parse .MAX with
  | some lo, some hi =>
      lo.errors == hi.errors && lo.warnings == hi.warnings
  | _, _ => false

end Parsing

end Cst

end Borzoi
