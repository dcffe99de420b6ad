import Borzoi.Lsp.MarkdownBlocks
import Borzoi.Lsp.MarkdownRead

/-
  Printed documents are read back.

  Main declarations:
    * `readInlines_print`
    * `OpensBlock`
    * `ClosesFence`
    * `printed_markdown_reads_back`
-/

namespace Borzoi

namespace Lsp

namespace Markdown

open Text

variable {isAlphanumeric : Char → Bool} {indent : List Char}

section Inlines

variable {indent : List Char}

variable {atLineStart : Bool} {d punct : Char} {i : Inline}
variable {digits rest tail text : List Char} {before : List Inline}

theorem Collapsed.no_breaks
    (hText : Collapsed text) :
    ∀ c ∈ text, c ≠ '\n' := by
  rintro c hMem rfl
  have hSpace := (hText.plain '\n' hMem).2 (by decide)
  cases hSpace

/- What the printed inline starts with. -/
def FirstOf :
    Inline → Char → List Char → Prop
  | .Text t, d, others =>
      d = '\\' ∧ (∃ c more, others = c :: more ∧ isPunctuation c = true) ∨
        some d = t.head? ∧ isStructural d = false
  | .Code _, d, _ => d = '`'
  | .Strong _, d, _ => d = '*'
  | .Emphasis _, d, _ => d = '*'
  | .Link _ _, d, _ => d = '['
  | .LineBreak, d, others => d = '\\' ∧ others.head? = some '\n'

theorem escapeText_head
    (hText : Collapsed text)
    (hNonempty : text ≠ [])
    (atLineStart beforeLink : Bool) :
    ∃ d others, escapeText text atLineStart beforeLink = d :: others ∧
      FirstOf (.Text text) d others := by
  cases text with
  | nil => exact absurd rfl hNonempty
  | cons c rest =>
      have hEscapes := isEscaped_escapes (c :: rest) atLineStart beforeLink
      rcases escapeBy_head hEscapes 0
          (hText.no_breaks c List.mem_cons_self) rest with
        ⟨d, others, hPrinted, ⟨hSlash, ⟨more, hMore⟩, hEscaped⟩ |
          ⟨hSame, hPlain, -⟩⟩
      · exact ⟨d, others, hPrinted,
          Or.inl ⟨hSlash, c, more, hMore, hEscapes.punctuation c 0 hEscaped⟩⟩
      · refine ⟨d, others, hPrinted, Or.inr ⟨?_, hPlain⟩⟩
        rw [hSame]
        rfl

theorem printInline_head
    (indent : List Char)
    (hTidy : i.Tidy)
    (hFilled : i.Filled)
    (atLineStart : Bool)
    (after : Option Inline) :
    ∃ d others, printInline indent atLineStart after i = d :: others ∧
      FirstOf i d others := by
  cases i with
  | Text t => exact escapeText_head hTidy hFilled _ _
  | Code c =>
      unfold printInline backticks
      dsimp only
      rw [List.replicate_succ]
      exact ⟨'`', _, rfl, rfl⟩
  | Strong t => exact ⟨'*', _, rfl, rfl⟩
  | Emphasis t => exact ⟨'*', _, rfl, rfl⟩
  | Link t url => exact ⟨'[', _, rfl, rfl⟩
  | LineBreak => exact ⟨'\\', _, rfl, rfl, rfl⟩

/- What follows an inline starts as the next one does. -/
theorem printed_first
    {rest : List Inline}
    (hRest : ∀ i ∈ rest, i.Tidy ∧ i.Filled)
    (hHead : (printInlinesFrom indent atLineStart rest).head? = some d) :
    ∃ i ∈ rest.head?, ∃ others,
      printInlinesFrom indent atLineStart rest = d :: others ∧
        FirstOf i d others := by
  cases rest with
  | nil => cases hHead
  | cons i more =>
      rcases hRest i List.mem_cons_self with ⟨hTidy, hFilled⟩
      rcases printInline_head indent hTidy hFilled atLineStart
        more.head? with ⟨e, others, hInline, hFirst⟩
      have hPrinted : printInlinesFrom indent atLineStart (i :: more) =
          e :: (others ++ printInlinesFrom indent (i == .LineBreak) more) := by
        rw [printInlinesFrom, hInline, List.cons_append]
      rw [hPrinted] at hHead ⊢
      cases Option.some.inj hHead
      refine ⟨i, rfl, _, rfl, ?_⟩
      cases i with
      | Text t =>
          rcases hFirst with ⟨hSlash, c, next, hSame, hPunctuation⟩ | hPlain
          · exact Or.inl ⟨hSlash, c, _, by rw [hSame]; rfl, hPunctuation⟩
          · exact Or.inr hPlain
      | LineBreak =>
          refine ⟨hFirst.1, ?_⟩
          rw [List.head?_append, hFirst.2]
          rfl
      | _ => exact hFirst

/- The characters of a structure are no start of a text. -/
theorem FirstOf.not_sign
    {t others : List Char}
    (hFirst : FirstOf (.Text t) d others) :
    d ∉ ['`', '*', '['] := by
  intro hSign
  have hStructural : ∀ c ∈ ['`', '*', '['], isStructural c = true ∧ c ≠ '\\' :=
    List.all_iff_forall_prop.1 (by decide)
  rcases hFirst with ⟨hSlash, -⟩ | ⟨-, hPlain⟩
  · exact (hStructural d hSign).2 hSlash
  · rw [(hStructural d hSign).1] at hPlain
    cases hPlain

section Seams

variable {rest : List Inline} {atLineStart : Bool}

section

variable (hRest : ∀ i ∈ rest, i.Tidy ∧ i.Filled)

include hRest

/- Code that no code follows is closed by its fence. -/
theorem printed_not_backtick
    (hNext : ∀ i ∈ rest.head?, isCode i = false) :
    (printInlinesFrom indent atLineStart rest).head? ≠ some '`' := by
  intro hTick
  rcases printed_first hRest hTick with ⟨i, hHead, others, -, hFirst⟩
  have hNotCode := hNext i hHead
  cases i with
  | Text t => exact hFirst.not_sign (by decide)
  | Code c => cases hNotCode
  | LineBreak => cases hFirst.1
  | _ => cases hFirst

theorem printed_not_star
    (hNext : ∀ i ∈ rest.head?, isEmphasis i = false) :
    (printInlinesFrom indent atLineStart rest).head? ≠ some '*' := by
  intro hStar
  rcases printed_first hRest hStar with ⟨i, hHead, others, -, hFirst⟩
  have hNotEmphasis := hNext i hHead
  cases i with
  | Text t => exact hFirst.not_sign (by decide)
  | Strong t => cases hNotEmphasis
  | Emphasis t => cases hNotEmphasis
  | LineBreak => cases hFirst.1
  | _ => cases hFirst

/- A bracket opens the link that follows. -/
theorem printed_bracket
    (hBracket :
      (printInlinesFrom indent atLineStart rest).head? = some '[') :
    rest.head?.any isLink = true := by
  rcases printed_first hRest hBracket with ⟨i, hHead, others, -, hFirst⟩
  rw [Option.mem_def.1 hHead, Option.any_some]
  cases i with
  | Text t => exact absurd (by decide) hFirst.not_sign
  | Link t url => rfl
  | LineBreak => cases hFirst.1
  | _ => cases hFirst

/- A text that no text follows ends where the next inline starts. -/
theorem printed_stops
    (hNext : ∀ i ∈ rest.head?, isText i = false) :
    Stops (printInlinesFrom indent atLineStart rest) := by
  cases hHead : (printInlinesFrom indent atLineStart rest).head? with
  | none =>
      rw [List.head?_eq_none_iff.1 hHead]
      exact stops_nil
  | some d =>
      rcases printed_first hRest hHead with ⟨i, hMem, others, hPrinted, hFirst⟩
      have hNotText := hNext i hMem
      rw [hPrinted]
      cases i with
      | Text t => cases hNotText
      | LineBreak =>
          rcases hFirst with ⟨rfl, hBreak⟩
          cases others with
          | nil => cases hBreak
          | cons c more =>
              rw [Option.some.inj hBreak]
              exact stops_lineBreak more
      | _ =>
          cases hFirst
          exact stops_sign (by decide) others

end

end Seams

/- An exclamation mark before a link is escaped. -/
theorem readText_escapeText
    (hText : Collapsed text)
    (hStop : Stops rest)
    (atLineStart : Bool)
    {beforeLink : Bool}
    (hLink : rest.head? = some '[' → beforeLink = true) :
    readText (escapeText text atLineStart beforeLink ++ rest) =
      (text, rest) := by
  apply readText_escapeBy (isEscaped_escapes text atLineStart beforeLink)
    hText.no_breaks hStop
  intro hBracket _
  have hIndex : (0 + text.length - 1 == text.length - 1) = true := by
    rw [Nat.zero_add]
    exact beq_self_eq_true _
  unfold isEscaped
  rw [if_neg (by decide), if_neg (by decide), if_neg (by decide), if_pos rfl,
    hLink hBracket, hIndex]
  rfl

/- Text between two runs of stars of one length. -/
theorem readText_stars
    (hText : Phrase text)
    (n : Nat)
    (hPos : 0 < n)
    (hRest : rest.head? ≠ some '*') :
    let stars := List.replicate n '*'
    let printed := stars ++ (escapeText text false false ++ (stars ++ rest))
    runLength '*' printed = n ∧
      readText (printed.drop n) = (text, stars ++ rest) ∧
      runLength '*' (stars ++ rest) = n := by
  dsimp only
  have hStars : ∃ more, List.replicate n '*' ++ rest = '*' :: more := by
    cases n with
    | zero => cases hPos
    | succ k => exact ⟨List.replicate k '*' ++ rest, rfl⟩
  rcases hStars with ⟨more, hMore⟩
  refine ⟨?_, ?_, runLength_replicate n hRest⟩
  · apply runLength_replicate
    rcases escapeText_head hText.collapsed hText.nonempty false false with
      ⟨d, others, hPrinted, hFirst⟩
    rw [hPrinted]
    intro hStar
    have hSame : d = '*' := Option.some.inj hStar
    apply hFirst.not_sign
    rw [hSame]
    decide
  · rw [List.drop_left' List.length_replicate, hMore]
    apply readText_escapeText hText.collapsed
      (stops_sign (by decide) more)
    intro hBracket
    cases hBracket

theorem readInline_strong
    (hText : Phrase text)
    (atLineStart : Bool)
    (after : Option Inline)
    (hRest : rest.head? ≠ some '*') :
    readInline indent
        (printInline indent atLineStart after (.Strong text) ++ rest) =
      some (.Strong text, rest) := by
  rcases readText_stars hText 2 (Nat.succ_pos 1) hRest with
    ⟨hOpen, hRead, hClose⟩
  have hPrinted : printInline indent atLineStart after (.Strong text) ++ rest =
      List.replicate 2 '*' ++ (escapeText text false false ++
        (List.replicate 2 '*' ++ rest)) := by
    unfold printInline
    rw [List.append_assoc, List.append_assoc]
    rfl
  rw [hPrinted]
  change readEmphasis _ = _
  unfold readEmphasis
  rw [hOpen]
  dsimp only
  rw [hRead]
  dsimp only
  rw [hClose]
  rfl

theorem readInline_emphasis
    (hText : Phrase text)
    (atLineStart : Bool)
    (after : Option Inline)
    (hRest : rest.head? ≠ some '*') :
    readInline indent
        (printInline indent atLineStart after (.Emphasis text) ++ rest) =
      some (.Emphasis text, rest) := by
  rcases readText_stars hText 1 (Nat.succ_pos 0) hRest with
    ⟨hOpen, hRead, hClose⟩
  have hPrinted :
      printInline indent atLineStart after (.Emphasis text) ++ rest =
      List.replicate 1 '*' ++ (escapeText text false false ++
        (List.replicate 1 '*' ++ rest)) := by
    change '*' :: escapeText text false false ++ ['*'] ++ rest = _
    rw [List.append_assoc]
    rfl
  rw [hPrinted]
  change readEmphasis _ = _
  unfold readEmphasis
  rw [hOpen]
  dsimp only
  rw [hRead]
  dsimp only
  rw [hClose]
  rfl

theorem readInline_code
    {code rest : List Char}
    (hCode : CodeText code)
    (atLineStart : Bool)
    (after : Option Inline)
    (hRest : rest.head? ≠ some '`') :
    readInline indent
        (printInline indent atLineStart after (.Code code) ++ rest) =
      some (.Code code, rest) := by
  have hShown : ¬ code.all isSpace = true := by
    intro hAll
    apply hCode.shown
    unfold trimBoth
    rw [List.dropWhile_eq_nil_iff.2 (List.all_eq_true.1 hAll)]
    rfl
  exact readCode_print hShown hRest

theorem readInline_link
    {text url : List Char}
    (hText : Phrase text)
    (hUrl : isPrintableUrl url = true)
    (atLineStart : Bool)
    (after : Option Inline)
    (rest : List Char) :
    readInline indent
        (printInline indent atLineStart after (.Link text url) ++ rest) =
      some (.Link text url, rest) := by
  have hPrinted :
      printInline indent atLineStart after (.Link text url) ++ rest =
      '[' :: (escapeText text false false ++
        (']' :: '(' :: '<' :: (escapeUrl url ++ '>' :: (')' :: rest)))) := by
    unfold printInline
    simp only [List.cons_append, List.append_assoc]
    rfl
  have hLabel : readText (escapeText text false false ++
      (']' :: '(' :: '<' :: (escapeUrl url ++ '>' :: (')' :: rest)))) =
      (text, ']' :: '(' :: '<' :: (escapeUrl url ++ '>' :: (')' :: rest))) := by
    apply readText_escapeText hText.collapsed (stops_sign (by decide) _)
    intro hBracket
    cases hBracket
  have hDestination := readUrl_escapeUrl
    (url_phrase hUrl).collapsed.no_breaks (')' :: rest)
  rw [hPrinted]
  change readLink _ = _
  unfold readLink
  rw [hLabel]
  change closeLink text (readUrl _) = _
  rw [hDestination]
  rfl

theorem readInline_lineBreak
    (atLineStart : Bool)
    (after : Option Inline)
    (rest : List Char) :
    readInline indent
        (printInline indent atLineStart after .LineBreak ++ rest) =
      some (.LineBreak, rest) := by
  have hPrinted : printInline indent atLineStart after .LineBreak ++ rest =
      '\\' :: '\n' :: (indent ++ rest) := rfl
  rw [hPrinted]
  change (if indent.isPrefixOf (indent ++ rest) = true then
    some (Inline.LineBreak, (indent ++ rest).drop indent.length) else none) = _
  rw [if_pos, List.drop_left]
  exact List.isPrefixOf_iff_prefix.2 (List.prefix_append indent rest)

theorem readInline_text
    (hText : Collapsed text)
    (hNonempty : text ≠ [])
    (atLineStart : Bool)
    {after : Option Inline}
    (hStop : Stops rest)
    (hLink : rest.head? = some '[' → after.any isLink = true) :
    readInline indent
        (printInline indent atLineStart after (.Text text) ++ rest) =
      some (.Text text, rest) := by
  have hRead := readText_escapeText hText hStop atLineStart hLink
  change readInline indent
    (escapeText text atLineStart (after.any isLink) ++ rest) = _
  rcases escapeText_head hText hNonempty atLineStart (after.any isLink) with
    ⟨d, others, hPrinted, hFirst⟩
  rw [hPrinted] at hRead ⊢
  have hNotSign := hFirst.not_sign
  unfold readInline
  split
  · next more hSame =>
      -- no text starts with a line break
      rcases hFirst with ⟨-, c, next, rfl, hPunctuation⟩ | ⟨-, hPlain⟩
      · rw [(List.cons.inj (List.cons.inj hSame).2).1] at hPunctuation
        cases hPunctuation
      · rw [(List.cons.inj hSame).1] at hPlain
        cases hPlain
  · next more hSame =>
      rw [(List.cons.inj hSame).1] at hNotSign
      exact absurd (by decide) hNotSign
  · next more hSame =>
      rw [(List.cons.inj hSame).1] at hNotSign
      exact absurd (by decide) hNotSign
  · next more hSame =>
      rw [(List.cons.inj hSame).1] at hNotSign
      exact absurd (by decide) hNotSign
  · rw [hRead]
    dsimp only
    rw [if_neg]
    exact fun hEmpty => hNonempty (List.isEmpty_iff.1 hEmpty)

/- A printed inline is read up to the one that follows. -/
theorem readInline_print
    {rest : List Inline}
    (hTidy : i.Tidy)
    (hFilled : i.Filled)
    (hRest : ∀ j ∈ rest, j.Tidy ∧ j.Filled)
    (hNext : ∀ j ∈ rest.head?, Distinct i j)
    (atLineStart : Bool) :
    let tail := printInlinesFrom indent (i == .LineBreak) rest
    readInline indent
        (printInline indent atLineStart rest.head? i ++ tail) =
      some (i, tail) := by
  dsimp only
  cases i with
  | Text t =>
      apply readInline_text hTidy hFilled
      · apply printed_stops hRest
        intro j hHead
        rw [Bool.eq_false_iff]
        exact fun hText => (hNext j hHead).texts ⟨rfl, hText⟩
      · exact printed_bracket hRest
  | Code c =>
      apply readInline_code hTidy
      apply printed_not_backtick hRest
      intro j hHead
      rw [Bool.eq_false_iff]
      exact fun hCode => (hNext j hHead).codes ⟨rfl, hCode⟩
  | Strong t =>
      apply readInline_strong hTidy
      apply printed_not_star hRest
      intro j hHead
      rw [Bool.eq_false_iff]
      exact fun hEmphasis => (hNext j hHead).emphases ⟨rfl, hEmphasis⟩
  | Emphasis t =>
      apply readInline_emphasis hTidy
      apply printed_not_star hRest
      intro j hHead
      rw [Bool.eq_false_iff]
      exact fun hEmphasis => (hNext j hHead).emphases ⟨rfl, hEmphasis⟩
  | Link t url => exact readInline_link hTidy.1 hTidy.2 atLineStart _ _
  | LineBreak => exact readInline_lineBreak atLineStart _ _

theorem readInlines_print
    {inlines : List Inline}
    (hEach : ∀ i ∈ inlines, i.Tidy ∧ i.Filled)
    (hApart : inlines.IsChain Distinct)
    (atLineStart : Bool) :
    readInlines indent (printInlinesFrom indent atLineStart inlines) =
      some inlines := by
  induction inlines generalizing atLineStart with
  | nil =>
      rw [readInlines]
      rfl
  | cons i rest ih =>
      rcases List.forall_mem_cons.1 hEach with ⟨⟨hTidy, hFilled⟩, hRest⟩
      rcases List.isChain_cons.1 hApart with ⟨hNext, hTail⟩
      have hRead : readInline indent
          (printInline indent atLineStart rest.head? i ++
            printInlinesFrom indent (i == .LineBreak) rest) =
          some (i, printInlinesFrom indent (i == .LineBreak) rest) :=
        readInline_print hTidy hFilled hRest hNext atLineStart
      have hHead : ∃ d others,
          printInline indent atLineStart rest.head? i = d :: others ∧
            FirstOf i d others :=
        printInline_head indent hTidy hFilled atLineStart rest.head?
      rcases hHead with ⟨d, others, hPrinted, -⟩
      rw [printInlinesFrom, readInlines, if_neg, hRead]
      · dsimp only
        rw [if_pos, ih hRest hTail]
        · rfl
        · rw [hPrinted, List.length_append, List.length_cons]
          omega
      · rw [hPrinted]
        exact Bool.false_ne_true

------------------------------------------------------------
-- Starts Of Lines
------------------------------------------------------------

/-
  A line starts with the sign of a heading, a quote, an item or an
  underline, or with the number of an item.
-/
def OpensBlock
    (line : List Char) :
    Prop :=
  (∃ sign ∈ ['#', '>', '-', '+', '*', '='], line.head? = some sign) ∨
    ∃ digits punct rest, line = digits ++ punct :: rest ∧ digits ≠ [] ∧
      (∀ d ∈ digits, NuGet.isAsciiDigit d = true) ∧
      (punct = '.' ∨ punct = ')')

/- What follows a text starts with a sign of its structure. -/
theorem printed_structural
    {rest : List Inline}
    (hRest : ∀ i ∈ rest, i.Tidy ∧ i.Filled)
    (hNext : ∀ i ∈ rest.head?, isText i = false) :
    ∀ c ∈ (printInlinesFrom indent atLineStart rest).head?,
      isStructural c = true := by
  intro c hHead
  rcases printed_first hRest hHead with ⟨i, hMem, others, -, hFirst⟩
  have hNotText := hNext i hMem
  cases i with
  | Text t => cases hNotText
  | LineBreak =>
      rw [hFirst.1]
      rfl
  | _ =>
      cases hFirst
      rfl

/- A number and its sign are printed only where they stand in the text. -/
theorem digits_of_escapeBy
    {f : Char → Nat → Bool}
    {k : Nat}
    (hLines : ∀ c ∈ text, c ≠ '\n')
    (hTail : ∀ c ∈ tail.head?, isStructural c = true)
    (hDigits : ∀ d ∈ digits, NuGet.isAsciiDigit d = true)
    (hPunct : punct = '.' ∨ punct = ')')
    (hPrinted : escapeBy f k text ++ tail = digits ++ punct :: rest) :
    ∃ more, text = digits ++ punct :: more ∧
      f punct (k + digits.length) = false := by
  have hPlainPunct : isStructural punct = false ∧ punct ≠ '\\' := by
    rcases hPunct with rfl | rfl
    · decide
    · decide
  have hPlainDigit : ∀ d, NuGet.isAsciiDigit d = true →
      isStructural d = false := by
    intro d hDigit
    rw [Bool.eq_false_iff]
    intro hStructural
    have hNone : ∀ c ∈ ['\\', '`', '*', '_', '[', ']', '<', '&', '|', '~',
        '\n'], NuGet.isAsciiDigit c = false :=
      List.all_iff_forall_prop.1 (by decide)
    rw [hNone d (of_decide_eq_true hStructural)] at hDigit
    cases hDigit
  -- the first character that is printed is the first of the text
  have hFirst : ∀ (k : Nat) (text : List Char) (c : Char) (others : List Char),
      (∀ c ∈ text, c ≠ '\n') → isStructural c = false →
      escapeBy f k text ++ tail = c :: others →
      ∃ more, text = c :: more ∧ f c k = false ∧
        escapeBy f (k + 1) more ++ tail = others := by
    intro k text c others hLines hPlain hSame
    cases text with
    | nil =>
        change tail = c :: others at hSame
        rw [hSame] at hTail
        rw [hTail c rfl] at hPlain
        cases hPlain
    | cons d more =>
        rw [escapeBy_cons] at hSame
        by_cases hEscaped : f d k = true
        · rw [if_pos hEscaped] at hSame
          rw [← (List.cons.inj hSame).1] at hPlain
          cases hPlain
        · rw [if_neg hEscaped] at hSame
          rcases List.cons.inj hSame with ⟨rfl, hRest⟩
          exact ⟨more, rfl, Bool.eq_false_iff.2 hEscaped, hRest⟩
  induction digits generalizing text k with
  | nil =>
      rcases hFirst k text punct rest hLines hPlainPunct.1 hPrinted with
        ⟨more, hText, hUnescaped, -⟩
      exact ⟨more, hText, hUnescaped⟩
  | cons d digits ih =>
      rcases List.forall_mem_cons.1 hDigits with ⟨hDigit, hOthers⟩
      rcases hFirst k text d _ hLines (hPlainDigit d hDigit) hPrinted with
        ⟨others, rfl, -, hRest⟩
      rcases ih (fun c hMem => hLines c (List.mem_cons_of_mem d hMem)) hOthers
        hRest with ⟨more, rfl, hUnescaped⟩
      refine ⟨more, rfl, ?_⟩
      rw [List.length_cons, ← Nat.add_assoc, Nat.add_right_comm]
      exact hUnescaped

theorem listPunct_digits
    (more : List Char)
    (hSome : digits ≠ [])
    (hDigits : ∀ d ∈ digits, NuGet.isAsciiDigit d = true)
    (hPunct : punct = '.' ∨ punct = ')') :
    listPunct (digits ++ punct :: more) true = some digits.length := by
  have hTake : (digits ++ punct :: more).takeWhile NuGet.isAsciiDigit =
      digits := by
    rw [List.takeWhile_append_of_pos hDigits, List.takeWhile_cons_of_neg,
      List.append_nil]
    rcases hPunct with rfl | rfl
    · decide
    · decide
  have hGet : (digits ++ punct :: more)[digits.length]? = some punct := by
    rw [List.getElem?_append_right (Nat.le_refl _), Nat.sub_self]
    rfl
  unfold listPunct
  rw [if_pos rfl, hTake]
  dsimp only
  rw [hGet, if_pos]
  refine ⟨List.length_pos_iff.2 hSome, ?_⟩
  rcases hPunct with rfl | rfl
  · exact Or.inl rfl
  · exact Or.inr rfl

/- No text at the start of a line opens a block. -/
theorem text_not_opens
    (hText : Collapsed text)
    (hNonempty : text ≠ [])
    (hTail : ∀ c ∈ tail.head?, isStructural c = true)
    (beforeLink : Bool) :
    ¬ OpensBlock (escapeText text true beforeLink ++ tail) := by
  have hEscapes := isEscaped_escapes text true beforeLink
  rintro (⟨sign, hSign, hHead⟩ |
    ⟨digits, punct, rest, hPrinted, hSome, hDigits, hPunct⟩)
  · cases text with
    | nil => exact hNonempty rfl
    | cons c more =>
        rcases escapeBy_head hEscapes 0
            (hText.no_breaks c List.mem_cons_self) more with
          ⟨d, others, hStart, hFirst⟩
        change (escapeBy _ 0 _ ++ tail).head? = _ at hHead
        rw [hStart] at hHead
        have hSame : d = sign := Option.some.inj hHead
        rw [← hSame] at hSign
        rcases hFirst with ⟨hSlash, -⟩ | ⟨hChar, -, hUnescaped⟩
        · rw [hSlash] at hSign
          revert hSign
          decide
        · have hEscaped : ∀ e ∈ ['#', '>', '-', '+', '*', '='],
              isEscaped (c :: more) true beforeLink e 0 = true := by
            intro e hMem
            unfold isEscaped
            split
            · rfl
            · next hOther =>
                rw [if_pos]
                · rfl
                · grind
          rw [hEscaped c (hChar ▸ hSign)] at hUnescaped
          cases hUnescaped
  · rcases digits_of_escapeBy hText.no_breaks hTail hDigits hPunct hPrinted with ⟨more, rfl, hUnescaped⟩
    have hPlace := listPunct_digits more hSome hDigits hPunct
    unfold isEscaped at hUnescaped
    rw [hPlace, Nat.zero_add] at hUnescaped
    have hMem : punct ∈ ['.', ')'] ∧ punct ∉ ['\\', '`', '*', '_', '[', ']',
        '<', '&', '|', '~'] ∧ punct ∉ ['#', '>', '+', '-', '='] := by
      rcases hPunct with rfl | rfl
      · decide
      · decide
    rw [if_neg hMem.2.1, if_neg hMem.2.2, if_pos hMem.1,
      beq_self_eq_true] at hUnescaped
    cases hUnescaped

/- The inlines of a line are printed behind what comes before it. -/
theorem printInlinesFrom_append
    (hLast : before.getLast? = some .LineBreak)
    (inlines : List Inline)
    (atLineStart : Bool) :
    printInlinesFrom indent atLineStart (before ++ inlines) =
        printInlinesFrom indent atLineStart before ++
          printInlinesFrom indent true inlines ∧
      ('\\' :: '\n' :: indent) <:+
        printInlinesFrom indent atLineStart before := by
  induction before generalizing atLineStart with
  | nil => cases hLast
  | cons i rest ih =>
      cases rest with
      | nil =>
          have hBreak : i = .LineBreak := Option.some.inj hLast
          rw [hBreak]
          refine ⟨?_, ⟨[], ?_⟩⟩
          · simp [printInlinesFrom, printInline]
          · simp [printInlinesFrom, printInline]
      | cons j others =>
          rw [List.getLast?_cons_cons] at hLast
          rcases ih hLast (i == .LineBreak) with ⟨hPrinted, hBreak⟩
          have hFront : printInlinesFrom indent atLineStart
              (i :: j :: others) =
              printInline indent atLineStart (some j) i ++
                printInlinesFrom indent (i == .LineBreak) (j :: others) :=
            rfl
          rw [hFront, List.append_assoc, ← hPrinted]
          exact ⟨rfl, hBreak.trans (List.suffix_append _ _)⟩

theorem printInlines_append
    (hStart : before = [] ∨ before.getLast? = some .LineBreak)
    (inlines : List Inline) :
    printInlines indent (before ++ inlines) =
        printInlines indent before ++ printInlines indent inlines ∧
      (before ≠ [] →
        ('\\' :: '\n' :: indent) <:+ printInlines indent before) := by
  rcases hStart with rfl | hLast
  · exact ⟨rfl, fun hSome => absurd rfl hSome⟩
  · rcases printInlinesFrom_append hLast inlines true with
      ⟨hPrinted, hBreak⟩
    exact ⟨hPrinted, fun _ => hBreak⟩

/- A text at the start of a line, with what stands behind it. -/
theorem line_not_opens
    {before after : List Inline}
    {t : List Char}
    (hNormal : Normal isAlphanumeric (before ++ .Text t :: after)) :
    ¬ OpensBlock (printInlines indent (.Text t :: after)) := by
  have hText : (Inline.Text t).Normal isAlphanumeric :=
    hNormal.each _ (List.mem_append_right _ List.mem_cons_self)
  have hApart := hNormal.apart.right_of_append
  rcases List.isChain_cons.1 hApart with ⟨hNext, -⟩
  apply text_not_opens hText.tidy hText.filled
  apply printed_structural
  · intro i hMem
    have hI := hNormal.each i
      (List.mem_append_right _ (List.mem_cons_of_mem _ hMem))
    exact ⟨hI.tidy, hI.filled⟩
  · intro i hHead
    rw [Bool.eq_false_iff]
    exact fun hOther => (hNext i hHead).distinct.texts ⟨rfl, hOther⟩

end Inlines

mutual

/- The code blocks of a tree. -/
def codeBlocks :
    List Block → List (Option (List Char) × List Char)
  | [] => []
  | block :: rest => blockCode block ++ codeBlocks rest

def blockCode :
    Block → List (Option (List Char) × List Char)
  | .Paragraph _ => []
  | .CodeBlock language code => [(language, code)]
  | .List _ items => itemsCode items

def itemsCode :
    List (List Block) → List (Option (List Char) × List Char)
  | [] => []
  | item :: rest => codeBlocks item ++ itemsCode rest

end

/- At least `n` backticks behind spaces, and nothing but white space. -/
def ClosesFence
    (n : Nat)
    (line : List Char) :
    Prop :=
  ∃ spaces run rest, line = spaces ++ backticks run ++ rest ∧
    (∀ c ∈ spaces, c = ' ') ∧ n ≤ run ∧ ∀ c ∈ rest, c = ' ' ∨ c = '\t'

def indentation
    (width : Nat) :
    List Char :=
  List.replicate width ' '

theorem codeBlocks_eq
    (blocks : List Block) :
    codeBlocks blocks = blocks.flatMap blockCode := by
  induction blocks with
  | nil => rfl
  | cons block rest ih => rw [codeBlocks, List.flatMap_cons, ih]

theorem itemsCode_eq
    (items : List (List Block)) :
    itemsCode items = items.flatMap codeBlocks := by
  induction items with
  | nil => rfl
  | cons item rest ih => rw [itemsCode, List.flatMap_cons, ih]

/- The languages of normal trees are single words. -/
theorem normalizeBlock_language
    (block : Block) :
    ∀ normal, normalizeBlock isAlphanumeric block = some normal →
      ∀ entry ∈ blockCode normal, ∀ c ∈ entry.1.getD [],
        isLanguageChar c = true := by
  induction block using block_induction with
  | hParagraph inlines =>
      intro normal hSome entry hMem
      rw [normalizeBlock] at hSome
      split at hSome
      · cases hSome
      · cases hSome
        cases hMem
  | hCode language code =>
      intro normal hSome entry hMem c hChar
      rw [normalizeBlock] at hSome
      split at hSome
      · cases hSome
      · cases hSome
        rw [List.mem_singleton.1 hMem] at hChar
        change c ∈ (normalizeLanguage language).getD [] at hChar
        cases hLanguage : normalizeLanguage language with
        | none =>
            rw [hLanguage] at hChar
            cases hChar
        | some word =>
            rw [hLanguage] at hChar
            have hKept := (Option.filter_eq_some_iff.1 hLanguage).1
            rcases Option.map_eq_some_iff.1 hKept with ⟨l, -, rfl⟩
            exact (List.mem_filter.1 hChar).2
  | hList ordered items ih =>
      intro normal hSome entry hMem
      rw [normalizeBlock] at hSome
      split at hSome
      · cases hSome
      · cases hSome
        rw [blockCode, itemsCode_eq, List.mem_flatMap,
          normalizeItems_eq] at hMem
        rcases hMem with ⟨item, hItem, hEntry⟩
        rcases List.mem_map.1 (List.mem_of_mem_filter hItem) with
          ⟨old, hOld, rfl⟩
        rw [codeBlocks_eq, List.mem_flatMap, normalize_eq] at hEntry
        rcases hEntry with ⟨normal, hNormal, hThere⟩
        rcases List.mem_filterMap.1 hNormal with ⟨block, hBlock, hSome⟩
        exact ih old hOld block hBlock normal hSome entry hThere

/- No line inside a code block has a run as long as its fence. -/
theorem code_line_open
    {code line indent : List Char}
    (hLine : line ∈ code.splitOn '\n')
    (hIndent : ∀ c ∈ indent, c = ' ') :
    ¬ ClosesFence (codeFence code).length (indent ++ line) := by
  rintro ⟨spaces, run, rest, hSame, hSpaces, hLong, -⟩
  have hRun : run ≤ maxRun 0 (indent ++ line) := by
    apply run_le_maxRun
    rw [hSame]
    exact List.infix_append spaces (backticks run) rest
  have hCode : line <:+: code := by
    have hJoined := infix_intercalate ['\n'] hLine
    rw [List.intercalate_splitOn] at hJoined
    exact hJoined
  have hMax := maxRun_infix hCode
  have hLongest := maxRun_le code
  rw [maxRun_spaces hIndent] at hRun
  unfold codeFence backticks at hLong
  rw [List.length_replicate] at hLong
  omega

theorem not_break_of_space
    (hIndent : ∀ c ∈ indent, c = ' ') :
    '\n' ∉ indent := by
  intro hMem
  have hSpace := hIndent '\n' hMem
  cases hSpace

theorem codeFence_no_break
    (code : List Char) :
    '\n' ∉ codeFence code := by
  intro hMem
  have hTick := List.eq_of_mem_replicate hMem
  cases hTick

theorem printCodeBlock_lines
    {language : Option (List Char)}
    (code : List Char)
    (hIndent : ∀ c ∈ indent, c = ' ')
    (hLanguage : ∀ c ∈ language.getD [], isLanguageChar c = true) :
    (printCodeBlock indent language code).splitOn '\n' =
      (codeFence code ++ language.getD []) ::
        ((code.splitOn '\n').map (indent ++ ·) ++
          [indent ++ codeFence code]) := by
  have hJoined : printCodeBlock indent language code =
      ['\n'].intercalate ((codeFence code ++ language.getD []) ::
        ((code.splitOn '\n').map (indent ++ ·) ++
          [indent ++ codeFence code])) := by
    unfold printCodeBlock
    rw [intercalate_cons, List.flatMap_append, List.flatMap_map]
    simp only [List.flatMap_singleton, List.append_assoc, List.cons_append,
      List.nil_append]
  rw [hJoined]
  apply List.splitOn_intercalate
  · have hNoIndent := not_break_of_space hIndent
    have hNoFence := codeFence_no_break code
    intro line hMem hBreak
    rcases List.mem_cons.1 hMem with hFirst | hRest
    · rw [hFirst] at hBreak
      rcases List.mem_append.1 hBreak with hFence | hWord
      · exact hNoFence hFence
      · have hNot := hLanguage '\n' hWord
        revert hNot
        decide
    · rcases List.mem_append.1 hRest with hInner | hLast
      · rcases List.mem_map.1 hInner with ⟨part, hPart, rfl⟩
        rcases List.mem_append.1 hBreak with hSpace | hChar
        · exact hNoIndent hSpace
        · have hNot := (mem_splitOnP hPart hChar).2
          cases hNot
      · rw [List.mem_singleton.1 hLast] at hBreak
        rcases List.mem_append.1 hBreak with hSpace | hFence
        · exact hNoIndent hSpace
        · exact hNoFence hFence
  · exact List.cons_ne_nil _ _

/-
  The inlines of a normal tree are printed at any indentation so that
  they are read back, and so that no text at the start of a line opens a
  block.  The lines of its code blocks stand between two fences, and none
  of them closes the first.
-/
theorem printed_markdown_reads_back
    (isAlphanumeric : Char → Bool)
    (blocks : List Block)
    (width : Nat) :
    let indent := indentation width
    (∀ inlines ∈ paragraphs (normalize isAlphanumeric blocks),
      readInlines indent (printInlines indent inlines) = some inlines ∧
      ∀ before t after, inlines = before ++ .Text t :: after →
        (before = [] ∨ before.getLast? = some .LineBreak) →
        let line := printInlines indent (.Text t :: after)
        printInlines indent inlines = printInlines indent before ++ line ∧
          (before ≠ [] →
            ('\\' :: '\n' :: indent) <:+ printInlines indent before) ∧
          ¬ OpensBlock line) ∧
    ∀ entry ∈ codeBlocks (normalize isAlphanumeric blocks),
      let inner := (entry.2.splitOn '\n').map (indent ++ ·)
      (printCodeBlock indent entry.1 entry.2).splitOn '\n' =
          (codeFence entry.2 ++ entry.1.getD []) ::
            (inner ++ [indent ++ codeFence entry.2]) ∧
        ∀ line ∈ inner, ¬ ClosesFence (codeFence entry.2).length line := by
  dsimp only
  have hIndent : ∀ c ∈ indentation width, c = ' ' :=
    fun c hMem => List.eq_of_mem_replicate hMem
  constructor
  · intro inlines hMem
    have hNormal := normalize_normal blocks inlines hMem
    constructor
    · apply readInlines_print
      · exact fun i hI => ⟨(hNormal.each i hI).tidy, (hNormal.each i hI).filled⟩
      · exact hNormal.apart.imp fun _ _ hApart => hApart.distinct
    · intro before t after hSplit hStart
      rw [hSplit] at hNormal ⊢
      rcases printInlines_append hStart (.Text t :: after) with
        ⟨hPrinted, hBreak⟩
      exact ⟨hPrinted, hBreak, line_not_opens hNormal⟩
  · intro entry hMem
    have hLanguage : ∀ c ∈ entry.1.getD [], isLanguageChar c = true := by
      rw [codeBlocks_eq, List.mem_flatMap, normalize_eq] at hMem
      rcases hMem with ⟨normal, hNormal, hThere⟩
      rcases List.mem_filterMap.1 hNormal with ⟨block, -, hSome⟩
      exact normalizeBlock_language block normal hSome entry hThere
    refine ⟨printCodeBlock_lines entry.2 hIndent hLanguage, ?_⟩
    intro line hLine
    rcases List.mem_map.1 hLine with ⟨part, hPart, rfl⟩
    exact code_line_open hPart hIndent

end Markdown

end Lsp

end Borzoi
