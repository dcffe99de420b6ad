import Borzoi.NuGet.Version
import Borzoi.Program.Coalesce
import Borzoi.Text.Trim

/-
  The documents of hover texts, and their printing as Markdown.

  A tree is brought into a normal form first: emphasis that has no
  spelling becomes text, and neighbours of one kind merge.  Texts are
  lists of characters; an output to which inlines are pushed is kept in
  reverse.
-/

namespace Borzoi

namespace Lsp

namespace Markdown

open NuGet (isWhitespace trim isAsciiDigit)
open Program (Merging)
open Text (trimBoth)

inductive Inline
  | Text (text : List Char)
  | Code (text : List Char)
  | Strong (text : List Char)
  | Emphasis (text : List Char)
  | Link (text url : List Char)
  | LineBreak
  deriving DecidableEq, Repr

inductive Block
  | Paragraph (inlines : List Inline)
  | CodeBlock (language : Option (List Char)) (code : List Char)
  | List (ordered : Bool) (items : List (List Block))

def isSpace
    (c : Char) :
    Bool :=
  c == ' '

def isBreakingSpace
    (c : Char) :
    Bool :=
  c ∈ [' ', '\t', '\n', '\r', Char.ofNat 0x0B, Char.ofNat 0x0C]

/- `char::is_control`. -/
def isControl
    (c : Char) :
    Bool :=
  c.toNat ≤ 0x1F || (0x7F ≤ c.toNat && c.toNat ≤ 0x9F)

def nul :
    Char :=
  Char.ofNat 0

def replacement :
    Char :=
  Char.ofNat 0xFFFD

/- `replace('\0', "\u{FFFD}")`. -/
def replaceNul
    (text : List Char) :
    List Char :=
  text.map fun c => if c = nul then replacement else c

/- `replace("\r\n", ..)`. -/
def replaceCrLf
    (ending : Char) :
    List Char → List Char
  | '\r' :: '\n' :: rest => ending :: replaceCrLf ending rest
  | c :: rest => c :: replaceCrLf ending rest
  | [] => []

def collapseFrom :
    Bool → List Char → List Char
  | _, [] => []
  | inSpace, c :: rest =>
      if isBreakingSpace c then
        if inSpace then collapseFrom true rest
        else ' ' :: collapseFrom true rest
      else
        (if c = nul then replacement else c) :: collapseFrom false rest

def collapse
    (text : List Char) :
    List Char :=
  collapseFrom false text

def blankLabelText
    (label url : List Char) :
    List Char :=
  if label.isEmpty then
    url
  else if url.isEmpty then
    [' ']
  else
    ' ' :: url ++ [' ']

def isPrintableUrl
    (url : List Char) :
    Bool :=
  !url.isEmpty && !url.any fun c => isWhitespace c || isControl c

def isEmphasis :
    Inline → Bool
  | .Strong _ => true
  | .Emphasis _ => true
  | _ => false

/- The spaces at the edges of a text, which stay outside. -/
def leading
    (text : List Char) :
    List Inline :=
  if text.head? = some ' ' then [.Text [' ']] else []

def trailing
    (text : List Char) :
    List Inline :=
  if text.getLast? = some ' ' then [.Text [' ']] else []

def hoisted
    (content : List Char)
    (make : List Char → Inline) :
    List Inline :=
  let content := collapse content
  let trimmed := trimBoth isSpace content
  if trimmed.isEmpty then
    [.Text content]
  else
    leading content ++ make trimmed :: trailing content

/- The line endings and the NUL of an inline code. -/
def codeChars
    (code : List Char) :
    List Char :=
  let code := (replaceCrLf ' ' code).map fun c =>
    if c = '\r' ∨ c = '\n' then ' ' else c
  replaceNul code

/- What the first step makes of an inline. -/
def atomsOf :
    Inline → List Inline
  | .Text t => [.Text (collapse t)]
  | .LineBreak => [.LineBreak]
  | .Code c =>
      let c := codeChars c
      if (trimBoth isSpace c).isEmpty then [.Text (collapse c)] else [.Code c]
  | .Strong c => hoisted c .Strong
  | .Emphasis c => hoisted c .Emphasis
  | .Link text url =>
      let url := replaceNul url
      if !isPrintableUrl url then
        let shown :=
          if (trim text).isEmpty then blankLabelText text url
          else text ++ " (".toList ++ url ++ [')']
        [.Text (collapse shown)]
      else
        let text := collapse text
        let trimmed := trimBoth isSpace text
        if trimmed.isEmpty then
          [.Text text, .Link url url, .Text text]
        else
          leading text ++ .Link trimmed url :: trailing text

/- Text without its first space behind a text that ends with one. -/
def seamed
    (last t : List Char) :
    List Char :=
  if last.getLast? = some ' ' ∧ t.head? = some ' ' then t.tail else t

def adjacent :
    Merging Inline where
  dropped
    | .Text t => t.isEmpty
    | _ => false
  join
    | .Text last, .Text t => some (.Text (last ++ seamed last t))
    | .Code last, .Code c => some (.Code (last ++ c))
    | _, _ => none

def mergeAdjacent
    (atoms : List Inline) :
    List Inline :=
  adjacent.merge atoms

section Emphasis

variable (isAlphanumeric : Char → Bool)

def emphasisSpellable
    (text : List Char) :
    Bool :=
  text.head?.any isAlphanumeric && text.getLast?.any isAlphanumeric

/- An emphasis between its neighbours stays, or becomes text. -/
def demoted
    (before after : Option Inline) :
    Inline → Inline :=
  let touches := before.any isEmphasis || after.any isEmphasis
  fun
  | .Strong t =>
      if emphasisSpellable isAlphanumeric t && !touches then .Strong t
      else .Text t
  | .Emphasis t =>
      if emphasisSpellable isAlphanumeric t && !touches then .Emphasis t
      else .Text t
  | other => other

def demotedFrom
    (before : Option Inline) :
    List Inline → List Inline
  | [] => []
  | atom :: rest =>
      demoted isAlphanumeric before rest.head? atom ::
        demotedFrom (some atom) rest

end Emphasis

def trimTrailing :
    List Inline → List Inline
  | .LineBreak :: before => trimTrailing before
  | .Text t :: before =>
      let trimmed := t.rdropWhile isSpace
      if trimmed.isEmpty then trimTrailing before else .Text trimmed :: before
  | out => out

def atLineStart
    (out : List Inline) :
    Bool :=
  out.head?.all (· == .LineBreak)

/- What an inline adds to the lines so far. -/
def pushLine
    (out : List Inline) :
    Inline → List Inline
  | .LineBreak =>
      let out := trimTrailing out
      if atLineStart out then out else .LineBreak :: out
  | .Text t =>
      let t := if atLineStart out then t.dropWhile isSpace else t
      if t.isEmpty then out else .Text t :: out
  | other => other :: out

def normalizeInlines
    (isAlphanumeric : Char → Bool)
    (inlines : List Inline) :
    List Inline :=
  let atoms := mergeAdjacent (inlines.flatMap atomsOf)
  let atoms := mergeAdjacent (demotedFrom isAlphanumeric none atoms)
  (trimTrailing (atoms.foldl pushLine [])).reverse

def isBlankLine
    (line : List Char) :
    Bool :=
  line.all fun c => c == ' ' || c == '\t'

/- The lines from the first to the last that is not blank. -/
def normalizeCode
    (code : List Char) :
    List Char :=
  let code := (replaceCrLf '\n' code).map fun c =>
    if c = '\r' then '\n' else c
  let code := replaceNul code
  ['\n'].intercalate (trimBoth isBlankLine (code.splitOn '\n'))

def isLanguageChar
    (c : Char) :
    Bool :=
  c.isAlphanum || "+#._-".toList.contains c

def normalizeLanguage
    (language : Option (List Char)) :
    Option (List Char) :=
  (language.map fun l => l.filter isLanguageChar).filter fun l => !l.isEmpty

section Blocks

variable (isAlphanumeric : Char → Bool)

mutual

def normalize :
    List Block → List Block
  | [] => []
  | block :: rest =>
      match normalizeBlock block with
      | some normal => normal :: normalize rest
      | none => normalize rest

def normalizeBlock :
    Block → Option Block
  | .Paragraph inlines =>
      let inlines := normalizeInlines isAlphanumeric inlines
      if inlines.isEmpty then none else some (.Paragraph inlines)
  | .CodeBlock language code =>
      let code := normalizeCode code
      if code.isEmpty then none
      else some (.CodeBlock (normalizeLanguage language) code)
  | .List ordered items =>
      let items := normalizeItems items
      if items.isEmpty then none else some (.List ordered items)

/- The items that have blocks left. -/
def normalizeItems :
    List (List Block) → List (List Block)
  | [] => []
  | item :: rest =>
      let item := normalize item
      if item.isEmpty then normalizeItems rest
      else item :: normalizeItems rest

end

end Blocks

def longestBacktickRun
    (s : List Char) :
    Nat :=
  ((s.splitOnP fun c => c != '`').map List.length).max?.getD 0

/- The place of the sign behind the digits that start a line. -/
def listPunct
    (text : List Char)
    (atLineStart : Bool) :
    Option Nat :=
  if atLineStart then
    let digits := (text.takeWhile isAsciiDigit).length
    if 0 < digits ∧ (text[digits]? = some '.' ∨ text[digits]? = some ')') then
      some digits
    else
      none
  else
    none

def isEscaped
    (text : List Char)
    (atLineStart beforeLink : Bool)
    (c : Char)
    (i : Nat) :
    Bool :=
  if c ∈ ['\\', '`', '*', '_', '[', ']', '<', '&', '|', '~'] then
    true
  else if c ∈ ['#', '>', '+', '-', '='] then
    atLineStart && i == 0
  else if c ∈ ['.', ')'] then
    listPunct text atLineStart == some i
  else if c = '!' then
    beforeLink && i == text.length - 1
  else
    false

def escapeText
    (text : List Char)
    (atLineStart beforeLink : Bool) :
    List Char :=
  text.zipIdx.flatMap fun (c, i) =>
    if isEscaped text atLineStart beforeLink c i then ['\\', c] else [c]

def escapeUrl
    (url : List Char) :
    List Char :=
  url.flatMap fun c =>
    if c ∈ ['<', '>', '\\', '&'] then ['\\', c] else [c]

/- A fence, and the space between it and the code of a span. -/
def backticks
    (n : Nat) :
    List Char :=
  List.replicate n '`'

def isEdge
    (c : Char) :
    Bool :=
  c == '`' || c == ' '

def padding
    (code : List Char) :
    List Char :=
  if code.head?.any isEdge || code.getLast?.any isEdge then [' '] else []

def isLink :
    Inline → Bool
  | .Link _ _ => true
  | _ => false

def printInline
    (indent : List Char)
    (atLineStart : Bool)
    (after : Option Inline) :
    Inline → List Char
  | .Text t => escapeText t atLineStart (after.any isLink)
  | .Code c =>
      let fence := backticks (longestBacktickRun c + 1)
      fence ++ padding c ++ c ++ padding c ++ fence
  | .Strong t => "**".toList ++ escapeText t false false ++ "**".toList
  | .Emphasis t => '*' :: escapeText t false false ++ ['*']
  | .Link text url =>
      '[' :: escapeText text false false ++ "](<".toList ++ escapeUrl url ++
        ">)".toList
  | .LineBreak => "\\\n".toList ++ indent

def printInlinesFrom
    (indent : List Char)
    (atLineStart : Bool) :
    List Inline → List Char
  | [] => []
  | inline :: rest =>
      printInline indent atLineStart rest.head? inline ++
        printInlinesFrom indent (inline == .LineBreak) rest

def printInlines
    (indent : List Char)
    (inlines : List Inline) :
    List Char :=
  printInlinesFrom indent true inlines

def codeFence
    (code : List Char) :
    List Char :=
  backticks (max (longestBacktickRun code) 2 + 1)

def printCodeBlock
    (indent : List Char)
    (language : Option (List Char))
    (code : List Char) :
    List Char :=
  codeFence code ++ language.getD [] ++
    ((code.splitOn '\n').flatMap fun line => '\n' :: indent ++ line) ++
    '\n' :: indent ++ codeFence code

/- Whether a list follows a list of its kind. -/
def sameKind :
    Option Block → Block → Bool
  | some (.List a _), .List b _ => a == b
  | _, _ => false

/- The marker of the item at an index. -/
def marker
    (ordered alternate : Bool)
    (n : Nat) :
    List Char :=
  match ordered, alternate with
  | false, false => ['-']
  | false, true => ['*']
  | true, false => Nat.toDigits 10 (n + 1) ++ ['.']
  | true, true => Nat.toDigits 10 (n + 1) ++ [')']

mutual

def printBlocksFrom
    (indent : List Char)
    (before : Option Block)
    (alternated : Bool) :
    List Block → List Char
  | [] => []
  | block :: rest =>
      let gap := if before.isSome then '\n' :: '\n' :: indent else []
      let alternated := sameKind before block && !alternated
      gap ++ printBlock indent alternated block ++
        printBlocksFrom indent (some block) alternated rest

def printBlock
    (indent : List Char)
    (alternate : Bool) :
    Block → List Char
  | .Paragraph inlines => printInlines indent inlines
  | .CodeBlock language code => printCodeBlock indent language code
  | .List ordered items => printItems indent ordered alternate 0 items

def printItems
    (indent : List Char)
    (ordered alternate : Bool)
    (n : Nat) :
    List (List Block) → List Char
  | [] => []
  | item :: rest =>
      let gap := if 0 < n then '\n' :: indent else []
      let mark := marker ordered alternate n
      let inner := indent ++ List.replicate (mark.length + 1) ' '
      gap ++ mark ++ ' ' :: printBlocksFrom inner none false item ++
        printItems indent ordered alternate (n + 1) rest

end

def printBlocks
    (indent : List Char)
    (blocks : List Block) :
    List Char :=
  printBlocksFrom indent none false blocks

def toMarkdown
    (isAlphanumeric : Char → Bool)
    (blocks : List Block) :
    List Char :=
  printBlocks [] (normalize isAlphanumeric blocks)

end Markdown

end Lsp

end Borzoi
