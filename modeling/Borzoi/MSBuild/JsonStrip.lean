import Borzoi.MSBuild.JsonGrammar
import Mathlib.Data.List.TakeWhile

/-
  Stripping comments and the grammar.

  What a text with comments spells, the stripped text spells with white
  space, and the other way round.
-/

namespace Borzoi

namespace MSBuild

namespace Json

open Program.Descent (bind_ok map_ok)

variable {total : Nat} {c : Char} {text rest out : List Char}

theorem stripFrom_nil :
    stripFrom total [] = .ok [] := by
  rw [stripFrom.eq_def]

theorem stripFrom_quote :
    stripFrom total ('"' :: rest) =
      (fun out => '"' :: (copyString rest).1 ++ out) <$>
        stripFrom total (copyString rest).2 := by
  rw [stripFrom]

theorem stripFrom_line :
    stripFrom total ('/' :: '/' :: rest) =
      stripFrom total (rest.dropWhile (· != '\n')) := by
  rw [stripFrom]

theorem stripFrom_block
    {rest' : List Char}
    (hSkip : skipBlock rest = some rest') :
    stripFrom total ('/' :: '*' :: rest) =
      (' ' :: ·) <$> stripFrom total rest' := by
  rw [stripFrom.eq_def]
  simp only
  split
  · rename_i rest'' hSkip'
    rw [hSkip] at hSkip'
    cases hSkip'
    rfl
  · rename_i hSkip'
    rw [hSkip] at hSkip'
    cases hSkip'

theorem stripFrom_plain
    (hQuote : c ≠ '"')
    (hSlash : c ≠ '/') :
    stripFrom total (c :: rest) = (c :: ·) <$> stripFrom total rest := by
  rw [stripFrom.eq_def]
  split
  · rename_i hNil
    cases hNil
  · rename_i hCons
    exact absurd (List.cons.inj hCons).1 hQuote
  · rename_i hCons
    exact absurd (List.cons.inj hCons).1 hSlash
  · rename_i hCons
    exact absurd (List.cons.inj hCons).1 hSlash
  · rename_i hCons
    cases hCons
    rfl

/- What one turn does to the text, where the whole walk succeeds. -/
theorem stripFrom_cases
    (hStrip : stripFrom total text = .ok out) :
    (text = [] ∧ out = []) ∨
    (∃ rest out', text = '"' :: rest ∧
      stripFrom total (copyString rest).2 = .ok out' ∧
      out = '"' :: (copyString rest).1 ++ out') ∨
    (∃ rest, text = '/' :: '/' :: rest ∧
      stripFrom total (rest.dropWhile (· != '\n')) = .ok out) ∨
    (∃ rest rest' out', text = '/' :: '*' :: rest ∧
      skipBlock rest = some rest' ∧
      stripFrom total rest' = .ok out' ∧ out = ' ' :: out') ∨
    (∃ c rest out', text = c :: rest ∧ c ≠ '"' ∧
      stripFrom total rest = .ok out' ∧ out = c :: out') := by
  rw [stripFrom.eq_def] at hStrip
  split at hStrip
  · cases hStrip
    exact .inl ⟨rfl, rfl⟩
  · rename_i rest
    rcases map_ok.1 hStrip with ⟨out', hRest, hOut⟩
    exact .inr (.inl ⟨rest, out', rfl, hRest, hOut.symm⟩)
  · rename_i rest
    exact .inr (.inr (.inl ⟨rest, rfl, hStrip⟩))
  · rename_i rest
    split at hStrip
    · rename_i rest' hSkip
      rcases map_ok.1 hStrip with ⟨out', hRest, hOut⟩
      exact .inr (.inr (.inr (.inl
        ⟨rest, rest', out', rfl, hSkip, hRest, hOut.symm⟩)))
    · cases hStrip
  · rename_i c rest hQuote hLine hBlock
    rcases map_ok.1 hStrip with ⟨out', hRest, hOut⟩
    refine .inr (.inr (.inr (.inr
      ⟨c, rest, out', rfl, ?_, hRest, hOut.symm⟩)))
    intro hEq
    exact hQuote (by rw [hEq])

theorem newline_of_dropWhile
    (hDrop : text.dropWhile (· != '\n') = c :: rest) :
    c = '\n' := by
  have hHead := List.head?_dropWhile_not (· != '\n') text
  rw [hDrop] at hHead
  simpa using hHead

/- A comment to the end of a line leaves the newline first. -/
theorem strip_lineEnd
    (hStrip :
      stripFrom total (text.dropWhile (· != '\n')) = .ok (c :: out)) :
    c = '\n' ∧
      ∃ rest, text.dropWhile (· != '\n') = '\n' :: rest ∧
        stripFrom total rest = .ok out := by
  cases hDrop : text.dropWhile (· != '\n') with
  | nil =>
      rw [hDrop, stripFrom_nil] at hStrip
      cases hStrip
  | cons d rest =>
      have hNewline : d = '\n' := newline_of_dropWhile hDrop
      subst hNewline
      rw [hDrop, stripFrom_plain (by decide) (by decide)] at hStrip
      rcases map_ok.1 hStrip with ⟨out', hRest, hOut⟩
      cases hOut
      exact ⟨rfl, rest, rfl, hRest⟩

/- A character of a token stands in the text itself. -/
theorem strip_token
    (hQuote : c ≠ '"')
    (hSpace : c ≠ ' ')
    (hNewline : c ≠ '\n')
    (hStrip : stripFrom total text = .ok (c :: out)) :
    ∃ rest, text = c :: rest ∧ stripFrom total rest = .ok out := by
  rcases stripFrom_cases hStrip with ⟨_, hOut⟩ | ⟨_, _, _, _, hOut⟩ |
    ⟨rest, _, hRest⟩ | ⟨_, _, _, _, _, _, hOut⟩ |
    ⟨d, rest, out', hText, _, hRest, hOut⟩
  · cases hOut
  · exact absurd (List.cons.inj hOut).1 hQuote
  · exact absurd (strip_lineEnd hRest).1 hNewline
  · exact absurd (List.cons.inj hOut).1 hSpace
  · cases hOut
    exact ⟨rest, hText, hRest⟩

theorem strip_quote
    (hStrip : stripFrom total text = .ok ('"' :: out)) :
    ∃ rest out', text = '"' :: rest ∧
      stripFrom total (copyString rest).2 = .ok out' ∧
      out = (copyString rest).1 ++ out' := by
  rcases stripFrom_cases hStrip with ⟨_, hOut⟩ |
    ⟨rest, out', hText, hRest, hOut⟩ | ⟨rest, _, hRest⟩ |
    ⟨_, _, _, _, _, _, hOut⟩ | ⟨d, rest, out', _, hQuote, _, hOut⟩
  · cases hOut
  · exact ⟨rest, out', hText, hRest, (List.cons.inj hOut).2⟩
  · exact absurd (strip_lineEnd hRest).1 (by decide)
  · exact absurd (List.cons.inj hOut).1 (by decide)
  · exact absurd (List.cons.inj hOut).1.symm hQuote

/- A white space starts no string and no comment, and a blank is one. -/
structure IsSpaceClass
    (space : Char → Prop) :
    Prop where
  blank : space ' '
  not_quote : ∀ c, space c → c ≠ '"'
  not_slash : ∀ c, space c → c ≠ '/'

theorem ascii_spaceClass :
    IsSpaceClass IsAsciiSpace where
  blank := .inl (.inl rfl)
  not_quote := by
    rintro c ((rfl | rfl | rfl | rfl) | rfl) <;> decide
  not_slash := by
    rintro c ((rfl | rfl | rfl | rfl) | rfl) <;> decide

variable {space : Char → Prop}

theorem skipBlock_some :
    skipBlock text = some rest ↔
      ∃ body, ¬ ['*', '/'] <:+: body ∧
        text = body ++ '*' :: '/' :: rest := by
  constructor
  · intro hSkip
    fun_induction skipBlock text with
    | case1 rest' =>
        cases hSkip
        refine ⟨[], ?_, rfl⟩
        intro hInfix
        exact absurd hInfix.length_le (by decide)
    | case2 c rest' hNot ih =>
        rcases ih hSkip with ⟨body, hBody, hText⟩
        refine ⟨c :: body, ?_, by rw [hText]; rfl⟩
        intro hInfix
        rcases List.infix_cons_iff.1 hInfix with hPre | hInfix
        · rcases hPre with ⟨tail, hTail⟩
          cases hTail
          exact hNot _ rfl hText
        · exact hBody hInfix
    | case3 => cases hSkip
  · rintro ⟨body, hBody, rfl⟩
    induction body with
    | nil => rfl
    | cons c body ih =>
        have hTail : ¬ ['*', '/'] <:+: body := fun hInfix =>
          hBody (hInfix.trans (List.suffix_cons c body).isInfix)
        rw [List.cons_append, skipBlock]
        · exact ih hTail
        · rintro rest' rfl hRest
          cases body with
          | nil => cases hRest
          | cons d body =>
              cases hRest
              exact hBody ⟨[], body, rfl⟩

/- What a gap strips to. -/
theorem strip_gap
    (hSpaces : IsSpaceClass space)
    (hGap : Commented space text rest)
    (hStrip : stripFrom total rest = .ok out) :
    ∃ out', stripFrom total text = .ok out' ∧ Blank space out' out := by
  induction hGap with
  | done rest => exact ⟨out, hStrip, .done out⟩
  | step hSpace _ ih =>
      rcases ih hStrip with ⟨out', hOut, hBlank⟩
      rw [stripFrom_plain (hSpaces.not_quote _ hSpace)
        (hSpaces.not_slash _ hSpace), hOut]
      exact ⟨_, rfl, .step hSpace hBlank⟩
  | @line body text rest hBody hEnd _ ih =>
      have hDrop : (body ++ text).dropWhile (· != '\n') = text := by
        rw [List.dropWhile_append_of_pos (by simpa using hBody)]
        rcases hEnd with rfl | ⟨rest, rfl⟩ <;> rfl
      rw [stripFrom_line, hDrop]
      exact ih hStrip
  | block hBody _ ih =>
      rcases ih hStrip with ⟨out', hOut, hBlank⟩
      rw [stripFrom_block (skipBlock_some.2 ⟨_, hBody, rfl⟩), hOut]
      exact ⟨_, rfl, .step hSpaces.blank hBlank⟩

/- A text that strips to nothing is a gap. -/
theorem strip_end
    (hStrip : stripFrom total text = .ok []) :
    Commented space text [] := by
  rcases stripFrom_cases hStrip with ⟨hText, _⟩ | ⟨_, _, _, _, hOut⟩ |
    ⟨rest, hText, hRest⟩ | ⟨_, _, _, _, _, _, hOut⟩ |
    ⟨_, _, _, _, _, _, hOut⟩
  · rw [hText]
    exact .done []
  · cases hOut
  · cases hDrop : rest.dropWhile (· != '\n') with
    | nil =>
        have hBody : ∀ c ∈ rest, c ≠ '\n' := by
          simpa using List.dropWhile_eq_nil_iff.1 hDrop
        have hGap : Commented space ('/' :: '/' :: (rest ++ [])) [] :=
          .line hBody (.inl rfl) (.done [])
        rwa [List.append_nil, ← hText] at hGap
    | cons d tail =>
        rw [hDrop, newline_of_dropWhile hDrop, stripFrom_plain (by decide)
          (by decide)] at hRest
        rcases map_ok.1 hRest with ⟨_, _, hOut⟩
        cases hOut
  · cases hOut
  · cases hOut

/- A white space of the stripped text is one of the text, the newline
   behind a comment, or a comment. -/
theorem strip_space
    (hSpace : space c)
    (hQuote : c ≠ '"')
    (hStrip : stripFrom total text = .ok (c :: out)) :
    ∃ rest, Commented space text rest ∧ stripFrom total rest = .ok out := by
  rcases stripFrom_cases hStrip with ⟨_, hOut⟩ | ⟨_, _, _, _, hOut⟩ |
    ⟨rest, hText, hRest⟩ | ⟨rest, rest', out', hText, hSkip, hRest, hOut⟩ |
    ⟨d, rest, out', hText, _, hRest, hOut⟩
  · cases hOut
  · exact absurd (List.cons.inj hOut).1 hQuote
  · rcases strip_lineEnd hRest with ⟨rfl, rest', hDrop, hRest'⟩
    refine ⟨rest', ?_, hRest'⟩
    have hSplit := List.takeWhile_append_dropWhile
      (p := (· != '\n')) (l := rest)
    rw [hText, ← hSplit, hDrop]
    apply Commented.line
    · intro d hd
      simpa using List.mem_takeWhile_imp hd
    · exact .inr ⟨rest', rfl⟩
    · exact .step hSpace (.done rest')
  · cases hOut
    rcases skipBlock_some.1 hSkip with ⟨body, hBody, rfl⟩
    rw [hText]
    exact ⟨rest', .block hBody (.done rest'), hRest⟩
  · cases hOut
    rw [hText]
    exact ⟨rest, .step hSpace (.done rest), hRest⟩

variable {v : JsonValue} {digits out' s word : List Char} {piece : Piece}

theorem gap_of_strip
    (hSpaces : IsSpaceClass space)
    (hBlank : Blank space out' out)
    (hStrip : stripFrom total text = .ok out') :
    ∃ rest, Commented space text rest ∧ stripFrom total rest = .ok out := by
  induction hBlank generalizing text with
  | done => exact ⟨text, .done text, hStrip⟩
  | step hSpace _ ih =>
      rcases strip_space hSpace (hSpaces.not_quote _ hSpace) hStrip with
        ⟨middle, hFirst, hMiddle⟩
      rcases ih hMiddle with ⟨rest, hSecond, hRest⟩
      exact ⟨rest, hFirst.trans hSecond, hRest⟩

theorem copyString_plain
    (hQuote : c ≠ '"')
    (hBackslash : c ≠ '\\') :
    copyString (c :: rest) =
      (c :: (copyString rest).1, (copyString rest).2) := by
  rw [copyString.eq_def]
  simp only [hQuote, hBackslash, if_false]

theorem copyString_quote :
    copyString ('"' :: rest) = (['"'], rest) := by
  rw [copyString.eq_def]
  simp

theorem copyString_escape
    (d : Char) :
    copyString ('\\' :: d :: rest) =
      ('\\' :: d :: (copyString rest).1, (copyString rest).2) := by
  rw [copyString.eq_def]
  simp only [if_true]

theorem copyString_chars
    (hPlain : ∀ c ∈ digits, c ≠ '"' ∧ c ≠ '\\') :
    copyString (digits ++ rest) =
      (digits ++ (copyString rest).1, (copyString rest).2) := by
  induction digits with
  | nil => rfl
  | cons c digits ih =>
      have hHead := hPlain c List.mem_cons_self
      rw [List.cons_append, copyString_plain hHead.1 hHead.2,
        ih fun d hd => hPlain d (List.mem_cons_of_mem c hd)]
      rfl

/- Nothing of a literal is lost. -/
theorem copyString_append
    (text : List Char) :
    (copyString text).1 ++ (copyString text).2 = text := by
  fun_induction copyString text with
  | case1 => rfl
  | case2 => rfl
  | case3 d rest ih => simpa using ih
  | case4 => rfl
  | case5 c rest _ _ ih => simpa using ih

/- What is copied ends at a quote, whatever comes behind it, or is all
   there is. -/
theorem copyString_closed
    (text : List Char) :
    (copyString text).2 = [] ∨
      ∀ rest, copyString ((copyString text).1 ++ rest) =
        ((copyString text).1, rest) := by
  fun_induction copyString text with
  | case1 => exact .inl rfl
  | case2 => exact .inl rfl
  | case3 d rest ih =>
      rcases ih with hNil | hClosed
      · exact .inl hNil
      · refine .inr fun rest' => ?_
        rw [List.cons_append, List.cons_append, copyString_escape,
          hClosed rest']
  | case4 => exact .inr fun rest => copyString_quote
  | case5 c rest hBackslash hQuote ih =>
      rcases ih with hNil | hClosed
      · exact .inl hNil
      · refine .inr fun rest' => ?_
        rw [List.cons_append, copyString_plain hQuote hBackslash,
          hClosed rest']

theorem hexValue_plain
    {v : Nat}
    (hHex : HexValue c v) :
    c ≠ '"' ∧ c ≠ '\\' := by
  have hLower : ∀ c ∈ "0123456789abcdef".toList, c ≠ '"' ∧ c ≠ '\\' :=
    Text.forall_mem_of_all (by decide)
  have hUpper : ∀ c ∈ "0123456789ABCDEF".toList, c ≠ '"' ∧ c ≠ '\\' :=
    Text.forall_mem_of_all (by decide)
  rcases hHex with hHex | hHex
  · exact hLower c (List.mem_of_getElem? hHex)
  · exact hUpper c (List.mem_of_getElem? hHex)

theorem hexNumber_plain
    {count n : Nat}
    (hNumber : HexNumber count digits n) :
    ∀ c ∈ digits, c ≠ '"' ∧ c ≠ '\\' := by
  rcases hNumber with ⟨-, values, hValues, -⟩
  intro c hc
  induction hValues with
  | nil => cases hc
  | cons hHex _ ih =>
      rcases List.mem_cons.1 hc with rfl | hc
      · exact hexValue_plain hHex
      · exact ih hc

/- Both passes see the same end of a string. -/
theorem copyString_body
    (hBody : StringBody s text rest) :
    copyString text = ((copyString text).1, rest) ∧
      ∀ rest', StringBody s ((copyString text).1 ++ rest') rest' := by
  induction hBody with
  | close rest =>
      rw [copyString_quote]
      exact ⟨rfl, fun rest' => .close rest'⟩
  | plain hControl hQuote hBackslash _ ih =>
      rw [copyString_plain hQuote hBackslash]
      refine ⟨by rw [ih.1], fun rest' => ?_⟩
      exact .plain hControl hQuote hBackslash (ih.2 rest')
  | escape hEscape _ ih =>
      rw [copyString_escape]
      exact ⟨by rw [ih.1], fun rest' => .escape hEscape (ih.2 rest')⟩
  | unicode hDigits _ ih =>
      rw [copyString_escape, copyString_chars (hexNumber_plain hDigits)]
      refine ⟨by rw [ih.1], fun rest' => ?_⟩
      rw [List.cons_append, List.cons_append, List.append_assoc]
      exact .unicode hDigits (ih.2 rest')
  | surrogates hDigits hDigits' hHigh hLow hChar _ ih =>
      rw [copyString_escape, copyString_chars (hexNumber_plain hDigits),
        copyString_escape, copyString_chars (hexNumber_plain hDigits')]
      refine ⟨by rw [ih.1], fun rest' => ?_⟩
      rw [List.cons_append, List.cons_append, List.append_assoc,
        List.cons_append, List.cons_append, List.append_assoc]
      exact .surrogates hDigits hDigits' hHigh hLow hChar (ih.2 rest')

/- A literal is copied as it stands. -/
theorem strip_literal
    (hBody : StringBody s text rest) :
    ∃ body, text = body ++ rest ∧
      (∀ rest', StringBody s (body ++ rest') rest') ∧
      ∀ total, stripFrom total ('"' :: text) =
        (fun out => '"' :: body ++ out) <$> stripFrom total rest := by
  rcases copyString_body hBody with ⟨hCopy, hOther⟩
  have hRest : (copyString text).2 = rest := congrArg Prod.snd hCopy
  refine ⟨(copyString text).1, ?_, hOther, ?_⟩
  · have hAll := copyString_append text
    rw [hRest] at hAll
    exact hAll.symm
  · intro total
    rw [stripFrom_quote, hRest]

/- A literal of the stripped text is one of the text. -/
theorem literal_of_strip
    (hBody : StringBody s out' out)
    (hStrip : stripFrom total text = .ok ('"' :: out')) :
    ∃ body rest, text = '"' :: body ∧ StringBody s body rest ∧
      stripFrom total rest = .ok out := by
  rcases strip_quote hStrip with ⟨body, out₁, hText, hRest, rfl⟩
  have hCopy : copyString ((copyString body).1 ++ out₁) =
      ((copyString body).1, out₁) := by
    rcases copyString_closed body with hNil | hClosed
    · have hAll := copyString_append body
      rw [hNil, List.append_nil] at hAll
      rw [hNil, stripFrom_nil] at hRest
      cases hRest
      rw [List.append_nil, hAll]
      exact Prod.ext hAll hNil
    · exact hClosed out₁
  rcases copyString_body hBody with ⟨hEnd, hOther⟩
  rw [hCopy] at hEnd hOther
  cases hEnd
  refine ⟨body, (copyString body).2, hText, ?_, hRest⟩
  have hSame := hOther (copyString body).2
  rwa [copyString_append] at hSame

------------------------------------------------------------
-- Words
------------------------------------------------------------

/- The characters of words: no quote, no slash, no blank, no newline. -/
def IsPlain
    (c : Char) :
    Prop :=
  c ≠ '"' ∧ c ≠ '/' ∧ c ≠ ' ' ∧ c ≠ '\n'

instance : DecidablePred IsPlain := fun c =>
  inferInstanceAs
    (Decidable (c ≠ '"' ∧ c ≠ '/' ∧ c ≠ ' ' ∧ c ≠ '\n'))

theorem isPlain_of_isDigit
    (hDigit : c.isDigit = true) :
    IsPlain c := by
  refine ⟨?_, ?_, ?_, ?_⟩ <;>
  · rintro rfl
    exact absurd hDigit (by decide)

theorem digits_plain
    (hDigits : Digits text) :
    ∀ c ∈ text, IsPlain c := fun c hc =>
  isPlain_of_isDigit (hDigits.2 c hc)

theorem fraction_plain
    (hForm : FractionForm text) :
    ∀ c ∈ text, IsPlain c := by
  intro c hc
  rcases hForm with rfl | ⟨digits, hDigits, rfl⟩
  · cases hc
  · rcases List.mem_cons.1 hc with rfl | hc
    · decide
    · exact digits_plain hDigits c hc

theorem exponent_plain
    (hForm : ExponentForm text) :
    ∀ c ∈ text, IsPlain c := by
  intro c hc
  rcases hForm with rfl | ⟨e, sign, digits, hE, hSign, hDigits, rfl⟩
  · cases hc
  · rcases List.mem_cons.1 hc with rfl | hc
    · rcases hE with rfl | rfl <;> decide
    · rcases List.mem_append.1 hc with hc | hc
      · rcases hSign with rfl | rfl | rfl <;> simp at hc <;>
          subst hc <;> decide
      · exact digits_plain hDigits c hc

theorem number_plain
    (hForm : NumberForm text) :
    ∀ c ∈ text, IsPlain c := by
  rcases hForm with
    ⟨sign, whole, fraction, exponent, hSign, hWhole, hFraction, hExponent,
      rfl⟩
  intro c hc
  rcases List.mem_append.1 hc with hc | hc
  · rcases hSign with rfl | rfl <;> simp at hc
    subst hc
    decide
  · rcases List.mem_append.1 hc with hc | hc
    · rcases hWhole with rfl | ⟨hDigits, _⟩
      · simp at hc
        subst hc
        decide
      · exact digits_plain hDigits c hc
    · rcases List.mem_append.1 hc with hc | hc
      · exact fraction_plain hFraction c hc
      · exact exponent_plain hExponent c hc

theorem word_plain
    (hWord : Word v text) :
    ∀ c ∈ text, IsPlain c := by
  cases hWord with
  | null => exact Text.forall_mem_of_all (by decide)
  | true => exact Text.forall_mem_of_all (by decide)
  | false => exact Text.forall_mem_of_all (by decide)
  | number hForm => exact number_plain hForm

theorem strip_word
    (hPlain : ∀ c ∈ word, IsPlain c)
    (hStrip : stripFrom total rest = .ok out) :
    stripFrom total (word ++ rest) = .ok (word ++ out) := by
  induction word with
  | nil => exact hStrip
  | cons c word ih =>
      have hHead := hPlain c List.mem_cons_self
      rw [List.cons_append, stripFrom_plain hHead.1 hHead.2.1,
        ih fun d hd => hPlain d (List.mem_cons_of_mem c hd)]
      rfl

theorem word_of_strip
    (hPlain : ∀ c ∈ word, IsPlain c)
    (hStrip : stripFrom total text = .ok (word ++ out)) :
    ∃ rest, text = word ++ rest ∧ stripFrom total rest = .ok out := by
  induction word generalizing text with
  | nil => exact ⟨text, rfl, hStrip⟩
  | cons c word ih =>
      have hHead := hPlain c List.mem_cons_self
      rcases strip_token hHead.1 hHead.2.2.1 hHead.2.2.2 hStrip with
        ⟨tail, rfl, hTail⟩
      rcases ih (fun d hd => hPlain d (List.mem_cons_of_mem c hd)) hTail
        with ⟨rest, rfl, hRest⟩
      exact ⟨rest, rfl, hRest⟩

theorem strip_mark
    (hPlain : IsPlain c)
    (hStrip : stripFrom total rest = .ok out) :
    stripFrom total (c :: rest) = .ok (c :: out) := by
  rw [stripFrom_plain hPlain.1 hPlain.2.1, hStrip]
  rfl

theorem mark_of_strip
    (hPlain : IsPlain c)
    (hStrip : stripFrom total text = .ok (c :: out)) :
    ∃ rest, text = c :: rest ∧ stripFrom total rest = .ok out :=
  strip_token hPlain.1 hPlain.2.2.1 hPlain.2.2.2 hStrip

section

variable (hSpaces : IsSpaceClass space)

include hSpaces

/- What a text spells with comments, the stripped text spells without. -/
theorem strip_reads
    (hReads : Reads (Commented space) piece text rest) :
    ∀ out, stripFrom total rest = .ok out →
      ∃ out', stripFrom total text = .ok out' ∧
        Reads (Blank space) piece out' out := by
  induction hReads with
  | word hWord =>
      intro out hStrip
      exact ⟨_, strip_word (word_plain hWord) hStrip, .word hWord⟩
  | string hBody =>
      intro out hStrip
      rcases strip_literal hBody with ⟨body, _, hOther, hLiteral⟩
      rw [hLiteral total, hStrip]
      exact ⟨_, rfl, .string (hOther out)⟩
  | emptyArray hGap =>
      intro out hStrip
      rcases strip_gap hSpaces hGap (strip_mark (by decide) hStrip) with
        ⟨out', hOut, hBlank⟩
      exact ⟨_, strip_mark (by decide) hOut, .emptyArray hBlank⟩
  | array _ ih =>
      intro out hStrip
      rcases ih _ (strip_mark (by decide) hStrip) with ⟨out', hOut, hItems⟩
      exact ⟨_, strip_mark (by decide) hOut, .array hItems⟩
  | emptyObject hGap =>
      intro out hStrip
      rcases strip_gap hSpaces hGap (strip_mark (by decide) hStrip) with
        ⟨out', hOut, hBlank⟩
      exact ⟨_, strip_mark (by decide) hOut, .emptyObject hBlank⟩
  | object _ ih =>
      intro out hStrip
      rcases ih _ (strip_mark (by decide) hStrip) with ⟨out', hOut, hFields⟩
      exact ⟨_, strip_mark (by decide) hOut, .object hFields⟩
  | item hBefore _ hAfter ih =>
      intro out hStrip
      rcases strip_gap hSpaces hAfter hStrip with ⟨stop, hStop, hAfter'⟩
      rcases ih stop hStop with ⟨start, hStart, hValue⟩
      rcases strip_gap hSpaces hBefore hStart with ⟨out', hOut, hBefore'⟩
      exact ⟨out', hOut, .item hBefore' hValue hAfter'⟩
  | field hBefore hKey hColon _ ih =>
      intro out hStrip
      rcases ih out hStrip with ⟨colon, hColonOut, hValue⟩
      rcases strip_gap hSpaces hColon (strip_mark (by decide) hColonOut)
        with ⟨stop, hStop, hColon'⟩
      rcases strip_literal hKey with ⟨body, _, hOther, hLiteral⟩
      have hStart := hLiteral total
      rw [hStop] at hStart
      rcases strip_gap hSpaces hBefore hStart with ⟨out', hOut, hBefore'⟩
      exact ⟨out', hOut, .field hBefore' (hOther stop) hColon' hValue⟩
  | lastElement _ ih =>
      intro out hStrip
      rcases ih out hStrip with ⟨out', hOut, hItem⟩
      exact ⟨out', hOut, .lastElement hItem⟩
  | moreElements _ _ ihItem ihItems =>
      intro out hStrip
      rcases ihItems out hStrip with ⟨comma, hComma, hItems⟩
      rcases ihItem _ (strip_mark (by decide) hComma) with
        ⟨out', hOut, hItem⟩
      exact ⟨out', hOut, .moreElements hItem hItems⟩
  | lastMember _ ih =>
      intro out hStrip
      rcases ih out hStrip with ⟨out', hOut, hField⟩
      exact ⟨out', hOut, .lastMember hField⟩
  | moreMembers _ _ ihField ihFields =>
      intro out hStrip
      rcases ihFields out hStrip with ⟨comma, hComma, hFields⟩
      rcases ihField _ (strip_mark (by decide) hComma) with
        ⟨out', hOut, hField⟩
      exact ⟨out', hOut, .moreMembers hField hFields⟩

/- What the stripped text spells, the text spells with comments. -/
theorem reads_of_strip
    (hReads : Reads (Blank space) piece out' out) :
    ∀ text, stripFrom total text = .ok out' →
      ∃ rest, Reads (Commented space) piece text rest ∧
        stripFrom total rest = .ok out := by
  induction hReads with
  | word hWord =>
      intro text hStrip
      rcases word_of_strip (word_plain hWord) hStrip with ⟨rest, rfl, hRest⟩
      exact ⟨rest, .word hWord, hRest⟩
  | string hBody =>
      intro text hStrip
      rcases literal_of_strip hBody hStrip with ⟨body, rest, rfl, hBody', hRest⟩
      exact ⟨rest, .string hBody', hRest⟩
  | emptyArray hGap =>
      intro text hStrip
      rcases mark_of_strip (by decide) hStrip with ⟨tail, rfl, hTail⟩
      rcases gap_of_strip hSpaces hGap hTail with ⟨stop, hGap', hStop⟩
      rcases mark_of_strip (by decide) hStop with ⟨rest, rfl, hRest⟩
      exact ⟨rest, .emptyArray hGap', hRest⟩
  | array _ ih =>
      intro text hStrip
      rcases mark_of_strip (by decide) hStrip with ⟨tail, rfl, hTail⟩
      rcases ih tail hTail with ⟨stop, hItems, hStop⟩
      rcases mark_of_strip (by decide) hStop with ⟨rest, rfl, hRest⟩
      exact ⟨rest, .array hItems, hRest⟩
  | emptyObject hGap =>
      intro text hStrip
      rcases mark_of_strip (by decide) hStrip with ⟨tail, rfl, hTail⟩
      rcases gap_of_strip hSpaces hGap hTail with ⟨stop, hGap', hStop⟩
      rcases mark_of_strip (by decide) hStop with ⟨rest, rfl, hRest⟩
      exact ⟨rest, .emptyObject hGap', hRest⟩
  | object _ ih =>
      intro text hStrip
      rcases mark_of_strip (by decide) hStrip with ⟨tail, rfl, hTail⟩
      rcases ih tail hTail with ⟨stop, hFields, hStop⟩
      rcases mark_of_strip (by decide) hStop with ⟨rest, rfl, hRest⟩
      exact ⟨rest, .object hFields, hRest⟩
  | item hBefore _ hAfter ih =>
      intro text hStrip
      rcases gap_of_strip hSpaces hBefore hStrip with
        ⟨start, hBefore', hStart⟩
      rcases ih start hStart with ⟨stop, hValue, hStop⟩
      rcases gap_of_strip hSpaces hAfter hStop with ⟨rest, hAfter', hRest⟩
      exact ⟨rest, .item hBefore' hValue hAfter', hRest⟩
  | field hBefore hKey hColon _ ih =>
      intro text hStrip
      rcases gap_of_strip hSpaces hBefore hStrip with
        ⟨start, hBefore', hStart⟩
      rcases literal_of_strip hKey hStart with
        ⟨body, stop, rfl, hKey', hStop⟩
      rcases gap_of_strip hSpaces hColon hStop with ⟨mark, hColon', hMark⟩
      rcases mark_of_strip (by decide) hMark with ⟨colon, rfl, hColonRest⟩
      rcases ih colon hColonRest with ⟨rest, hValue, hRest⟩
      exact ⟨rest, .field hBefore' hKey' hColon' hValue, hRest⟩
  | lastElement _ ih =>
      intro text hStrip
      rcases ih text hStrip with ⟨rest, hItem, hRest⟩
      exact ⟨rest, .lastElement hItem, hRest⟩
  | moreElements _ _ ihItem ihItems =>
      intro text hStrip
      rcases ihItem text hStrip with ⟨stop, hItem, hStop⟩
      rcases mark_of_strip (by decide) hStop with ⟨comma, rfl, hComma⟩
      rcases ihItems comma hComma with ⟨rest, hItems, hRest⟩
      exact ⟨rest, .moreElements hItem hItems, hRest⟩
  | lastMember _ ih =>
      intro text hStrip
      rcases ih text hStrip with ⟨rest, hField, hRest⟩
      exact ⟨rest, .lastMember hField, hRest⟩
  | moreMembers _ _ ihField ihFields =>
      intro text hStrip
      rcases ihField text hStrip with ⟨stop, hField, hStop⟩
      rcases mark_of_strip (by decide) hStop with ⟨comma, rfl, hComma⟩
      rcases ihFields comma hComma with ⟨rest, hFields, hRest⟩
      exact ⟨rest, .moreMembers hField hFields, hRest⟩

/- Both directions, for a whole text. -/
theorem spelling_strip
    (hStrip : stripFrom total text = .ok out) :
    Spelling (Commented space) v text ↔ Spelling (Blank space) v out := by
  constructor
  · intro hSpelling
    rcases strip_reads hSpaces hSpelling [] stripFrom_nil with
      ⟨out', hOut, hReads⟩
    rw [hStrip] at hOut
    cases hOut
    exact hReads
  · intro hSpelling
    rcases reads_of_strip hSpaces hSpelling text hStrip with
      ⟨rest, hReads, hRest⟩
    cases hReads with
    | item hBefore hValue hAfter =>
        exact .item hBefore hValue (hAfter.trans (strip_end hRest))

/- A spelling has no unterminated comment. -/
theorem strip_of_spelling
    (hSpelling : Spelling (Commented space) v text) :
    ∃ out, stripFrom total text = .ok out := by
  rcases strip_reads hSpaces hSpelling [] stripFrom_nil with ⟨out, hOut, _⟩
  exact ⟨out, hOut⟩

end

end Json

end MSBuild

end Borzoi
