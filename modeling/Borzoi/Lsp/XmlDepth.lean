import Borzoi.Text.Markup

/-
  The bound on XML element nesting before a parse.

  The scan takes one construct a turn.  A well-formed token is taken
  whole, with its effect on the open elements; whatever the scan meets,
  its estimate never falls.

  Main declarations:
    * `maxNesting`
    * `loop_spell`
    * `max_nesting_exact`
-/

namespace Borzoi

namespace Lsp

namespace XmlDoc

open Markup

/-
  The input behind the first `needle`, or its end when there is none.
-/
def skipPast
    (needle : List Char) :
    List Char → List Char
  | [] => []
  | b :: rest =>
      if needle.isPrefixOf (b :: rest) then
        (b :: rest).drop needle.length
      else
        skipPast needle rest

/-
  The input behind a start tag's `>`, and whether it was `/>`.  The byte
  in front of the input is `prev`.
-/
def scanStartTag
    (prev : Char) :
    Option Char → List Char → List Char × Bool
  | _, [] => ([], false)
  | some q, b :: rest =>
      if b = q then
        scanStartTag b none rest
      else if b = '<' then
        (b :: rest, false)
      else
        scanStartTag b (some q) rest
  | none, b :: rest =>
      if b = '"' ∨ b = '\'' then
        scanStartTag b (some b) rest
      else if b = '>' then
        (rest, prev == '/')
      else if b = '<' then
        (b :: rest, false)
      else
        scanStartTag b none rest

structure Scan where
  depth : Nat
  max : Nat
  rest : List Char

/- A start tag, counted before it is known to be self-closing. -/
def openTag
    (s : Scan)
    (scanned : List Char × Bool) :
    Scan where
  depth := if scanned.2 then s.depth + 1 - 1 else s.depth + 1
  max := Nat.max s.max (s.depth + 1)
  rest := scanned.1

/- One turn of the loop of `max_nesting`. -/
def turn
    (s : Scan) :
    Scan :=
  match s.rest with
  | [] => s
  | b :: tail =>
      if b ≠ '<' then
        { s with rest := tail }
      else if ['<', '!', '-', '-'].isPrefixOf s.rest then
        { s with rest := skipPast ['-', '-', '>'] (s.rest.drop 4) }
      else if ['<', '!', '[', 'C', 'D', 'A', 'T', 'A', '['].isPrefixOf
          s.rest then
        { s with rest := skipPast [']', ']', '>'] (s.rest.drop 9) }
      else if ['<', '?'].isPrefixOf s.rest then
        { s with rest := skipPast ['?', '>'] (s.rest.drop 2) }
      else if ['<', '/'].isPrefixOf s.rest then
        { s with
          depth := s.depth - 1
          rest := skipPast ['>'] (s.rest.drop 2) }
      else if ['<', '!'].isPrefixOf s.rest then
        { s with rest := skipPast ['>'] (s.rest.drop 2) }
      else
        openTag s (scanStartTag b none tail)

theorem length_skipPast_le
    (needle rest : List Char) :
    (skipPast needle rest).length ≤ rest.length := by
  induction rest with
  | nil => exact Nat.le_refl _
  | cons b rest ih =>
      rw [skipPast]
      split
      · rw [List.length_drop]
        exact Nat.sub_le _ _
      · exact Nat.le_succ_of_le ih

theorem length_scanStartTag_le
    (prev : Char)
    (quote : Option Char)
    (rest : List Char) :
    (scanStartTag prev quote rest).1.length ≤ rest.length := by
  induction rest generalizing prev quote with
  | nil =>
      have hStop : scanStartTag prev quote [] = ([], false) := by
        rw [scanStartTag]
      exact Nat.le_of_eq (congrArg (fun scanned => scanned.1.length) hStop)
  | cons b rest ih =>
      have hNext := fun quote => Nat.le_succ_of_le (ih b quote)
      cases quote with
      | none =>
          rw [scanStartTag]
          split_ifs
          · exact hNext _
          · exact Nat.le_succ _
          · exact Nat.le_refl _
          · exact hNext _
      | some q =>
          rw [scanStartTag]
          split_ifs
          · exact hNext _
          · exact Nat.le_refl _
          · exact hNext _

variable {c quote : Char} {attributes : List Attribute}
variable {body text value : List Char} {tokens : List Token} {depth max : Nat}
variable {s : Scan}

/- Every turn takes some of the input. -/
theorem length_turn_lt
    (hRest : s.rest ≠ []) :
    (turn s).rest.length < s.rest.length := by
  unfold turn
  split
  · rename_i hNil
    exact absurd hNil hRest
  · rename_i b tail hCons
    have hSkip : ∀ needle k,
        (skipPast needle (s.rest.drop (k + 1))).length <
          s.rest.length := by
      intro needle k
      have hLe := length_skipPast_le needle (s.rest.drop (k + 1))
      rw [hCons, List.length_drop] at hLe
      rw [hCons]
      simp only [List.length_cons] at hLe ⊢
      omega
    split_ifs
    · rw [hCons]
      exact Nat.lt_succ_self _
    · exact hSkip _ 3
    · exact hSkip _ 8
    · exact hSkip _ 1
    · exact hSkip _ 1
    · exact hSkip _ 1
    · rw [hCons]
      exact Nat.lt_succ_of_le (length_scanStartTag_le _ _ _)

def loop
    (s : Scan) :
    Nat :=
  if _hRest : s.rest = [] then
    s.max
  else
    loop (turn s)
termination_by s.rest.length
decreasing_by exact length_turn_lt ‹_›

/- `max_nesting`. -/
def maxNesting
    (text : List Char) :
    Nat :=
  loop ⟨0, 0, text⟩

theorem loop_nil
    (depth max : Nat) :
    loop ⟨depth, max, []⟩ = max := by
  rw [loop]
  rfl

theorem loop_turn
    (hRest : s.rest ≠ []) :
    loop s = loop (turn s) := by
  rw [loop, dif_neg hRest]

theorem max_turn_le
    (s : Scan) :
    s.max ≤ (turn s).max := by
  unfold turn
  split
  · exact Nat.le_refl _
  · split_ifs
    all_goals first
      | exact Nat.le_refl _
      | exact Nat.le_max_left _ _

theorem max_loop_le
    (s : Scan) :
    s.max ≤ loop s := by
  induction s using loop.induct with
  | case1 s hRest =>
      have hStop : loop s = s.max := by
        rw [loop, dif_pos hRest]
      exact Nat.le_of_eq hStop.symm
  | case2 s hRest ih =>
      rw [loop_turn hRest]
      exact Nat.le_trans (max_turn_le s) ih

section Turns

variable (depth max : Nat) (rest : List Char)

theorem turn_text
    (hText : c ≠ '<') :
    turn ⟨depth, max, c :: rest⟩ = ⟨depth, max, rest⟩ := by
  simp [turn, hText]

theorem turn_comment :
    turn ⟨depth, max, commentOpen ++ rest⟩ =
      ⟨depth, max, skipPast commentClose rest⟩ :=
  rfl

theorem turn_charData :
    turn ⟨depth, max, charDataOpen ++ rest⟩ =
      ⟨depth, max, skipPast charDataClose rest⟩ :=
  rfl

theorem turn_instruction :
    turn ⟨depth, max, instructionOpen ++ rest⟩ =
      ⟨depth, max, skipPast instructionClose rest⟩ :=
  rfl

theorem turn_endTag :
    turn ⟨depth, max, endTagOpen ++ rest⟩ =
      ⟨depth - 1, max, skipPast ['>'] rest⟩ :=
  rfl

theorem turn_openTag
    (hSign : isSign c = false) :
    turn ⟨depth, max, '<' :: c :: rest⟩ =
      openTag ⟨depth, max, '<' :: c :: rest⟩
        (scanStartTag '<' none (c :: rest)) := by
  have hBang : c ≠ '!' := by
    rintro rfl
    cases hSign
  have hAsk : c ≠ '?' := by
    rintro rfl
    cases hSign
  have hSlash : c ≠ '/' := by
    rintro rfl
    cases hSign
  simp [turn, List.isPrefixOf, hBang.symm, hAsk.symm, hSlash.symm]

end Turns

/- A body without its closing mark ends at the first one. -/
theorem skipPast_append
    (front : List Char)
    (last : Char)
    (hLast : last ∉ front)
    (hBody : ¬(front ++ [last]) <:+: body)
    (rest : List Char) :
    skipPast (front ++ [last]) (body ++ (front ++ [last] ++ rest)) =
      rest := by
  induction body with
  | nil =>
      have hHere : (front ++ [last]).isPrefixOf
          (front ++ [last] ++ rest) = true :=
        List.isPrefixOf_iff_prefix.2 (List.prefix_append _ _)
      rw [List.nil_append]
      cases hText : front ++ [last] ++ rest with
      | nil => simp at hText
      | cons b tail =>
          rw [skipPast, ← hText, if_pos hHere, List.drop_left]
  | cons b body ih =>
      have hNotHere : ¬(front ++ [last]).isPrefixOf
          (b :: body ++ (front ++ [last] ++ rest)) = true := by
        rw [List.isPrefixOf_iff_prefix]
        intro hPrefix
        by_cases hShort : (front ++ [last]).length ≤ (b :: body).length
        · apply hBody
          exact (List.prefix_of_prefix_length_le hPrefix
            (List.prefix_append _ _) hShort).isInfix
        · -- The mark would end inside the mark behind the body.
          apply hLast
          rcases hPrefix with ⟨behind, hEq⟩
          have hReach : (b :: body).length ≤ front.length := by
            rw [List.length_append, List.length_singleton] at hShort
            omega
          have hInside :
              front.length - (b :: body).length < front.length := by
            rw [List.length_cons] at hReach ⊢
            omega
          have hChar : (b :: body ++ (front ++ ([last] ++ rest)))[
              front.length]? = some last := by
            rw [← List.append_assoc front, ← hEq, List.append_assoc,
              List.getElem?_append_right (Nat.le_refl _), Nat.sub_self]
            rfl
          rw [List.getElem?_append_right hReach,
            List.getElem?_append_left hInside] at hChar
          exact List.mem_of_getElem? hChar
      have hBody' : ¬(front ++ [last]) <:+: body :=
        fun hInfix => hBody (hInfix.trans (List.suffix_cons b body).isInfix)
      rw [List.cons_append] at hNotHere ⊢
      rw [skipPast, if_neg hNotHere]
      exact ih hBody'

/- A part of a tag behind which the scan stands outside a value. -/
def Passes
    (text : List Char) :
    Prop :=
  ∀ prev rest, prev ≠ '/' →
    ∃ last, last ≠ '/' ∧
      scanStartTag prev none (text ++ rest) = scanStartTag last none rest

theorem passes_nil :
    Passes [] :=
  fun prev _ hPrev => ⟨prev, hPrev, rfl⟩

theorem Passes.append
    {left right : List Char}
    (hLeft : Passes left)
    (hRight : Passes right) :
    Passes (left ++ right) := by
  intro prev rest hPrev
  rcases hLeft prev (right ++ rest) hPrev with ⟨mid, hMid, hFirst⟩
  rcases hRight mid rest hMid with ⟨last, hLast, hSecond⟩
  refine ⟨last, hLast, ?_⟩
  rw [List.append_assoc, hFirst, hSecond]

/- A sign that means nothing to the scan. -/
def IsPlain
    (c : Char) :
    Prop :=
  c ≠ '"' ∧ c ≠ '\'' ∧ c ≠ '>' ∧ c ≠ '<' ∧ c ≠ '/'

theorem passes_plain
    (hPlain : ∀ c ∈ text, IsPlain c) :
    Passes text := by
  induction text with
  | nil => exact passes_nil
  | cons c text ih =>
      intro prev rest _
      rcases hPlain c List.mem_cons_self with
        ⟨hDouble, hSingle, hClose, hOpen, hSlash⟩
      have hRest := ih fun d hMem =>
        hPlain d (List.mem_cons_of_mem _ hMem)
      rcases hRest c rest hSlash with ⟨last, hLast, hScan⟩
      refine ⟨last, hLast, ?_⟩
      rw [List.cons_append, scanStartTag, if_neg (not_or.2 ⟨hDouble, hSingle⟩),
        if_neg hClose, if_neg hOpen, hScan]

/- Inside a value the scan waits for its quote. -/
theorem scanStartTag_value
    (hUnquoted : quote ∉ value)
    (hUnopened : '<' ∉ value)
    (prev : Char)
    (rest : List Char) :
    scanStartTag prev (some quote) (value ++ quote :: rest) =
      scanStartTag quote none rest := by
  induction value generalizing prev with
  | nil =>
      rw [List.nil_append, scanStartTag, if_pos rfl]
  | cons c value ih =>
      rw [List.mem_cons, not_or] at hUnquoted hUnopened
      rw [List.cons_append, scanStartTag, if_neg (Ne.symm hUnquoted.1),
        if_neg (Ne.symm hUnopened.1)]
      exact ih hUnquoted.2 hUnopened.2 c

theorem passes_quoted
    (hQuote : quote = '"' ∨ quote = '\'')
    (hUnquoted : quote ∉ value)
    (hUnopened : '<' ∉ value) :
    Passes (quote :: value ++ [quote]) := by
  intro prev rest _
  refine ⟨quote, ?_, ?_⟩
  · rcases hQuote with rfl | rfl <;> decide
  · rw [List.append_assoc, List.cons_append, scanStartTag, if_pos hQuote]
    exact scanStartTag_value hUnquoted hUnopened quote rest

theorem isPlain_of_isSpace
    (hSpace : isSpace c = true) :
    IsPlain c := by
  refine ⟨?_, ?_, ?_, ?_, ?_⟩ <;> rintro rfl <;> cases hSpace

theorem isPlain_of_isSign
    (hSign : isSign c = false) :
    IsPlain c := by
  refine ⟨?_, ?_, ?_, ?_, ?_⟩ <;> rintro rfl <;> cases hSign

theorem passes_space
    (hSpace : IsSpace text) :
    Passes text :=
  passes_plain fun c hMem => isPlain_of_isSpace (hSpace c hMem)

theorem passes_name
    {name : List Char}
    (hName : IsName name) :
    Passes name :=
  passes_plain fun c hMem => isPlain_of_isSign (hName.2 c hMem).2

theorem passes_attribute
    {attr : Attribute}
    (hAttr : attr.WellFormed) :
    Passes attr.spell := by
  have hEquals : Passes ['='] := by
    apply passes_plain
    intro c hMem
    rw [List.mem_singleton.1 hMem]
    unfold IsPlain
    decide
  have hValue := passes_quoted hAttr.quote hAttr.unquoted hAttr.unopened
  have hSpell : attr.spell =
      attr.space ++ (attr.name ++ (attr.before ++ (['='] ++
        (attr.after ++ (attr.quote :: attr.value ++ [attr.quote]))))) := by
    simp [Attribute.spell]
  rw [hSpell]
  exact (passes_space hAttr.space).append
    ((passes_name hAttr.name).append
      ((passes_space hAttr.before).append
        (hEquals.append ((passes_space hAttr.after).append hValue))))

theorem passes_tagBody
    {name space : List Char}
    (hTag : WellFormedTag name attributes space) :
    Passes (Token.tagBody name attributes space) := by
  have hAttributes : Passes (attributes.flatMap Attribute.spell) := by
    have hAll := hTag.attributes
    clear hTag
    induction attributes with
    | nil => exact passes_nil
    | cons attr attributes ih =>
        rw [List.flatMap_cons]
        exact (passes_attribute (hAll attr List.mem_cons_self)).append
          (ih fun other hMem => hAll other (List.mem_cons_of_mem _ hMem))
  exact (passes_name hTag.name).append
    (hAttributes.append (passes_space hTag.space))

/- The scan of a tag in full. -/
theorem scanStartTag_start
    (hPasses : Passes text)
    (rest : List Char) :
    scanStartTag '<' none (text ++ '>' :: rest) = (rest, false) := by
  rcases hPasses '<' ('>' :: rest) (by decide) with ⟨last, hLast, hScan⟩
  rw [hScan, scanStartTag]
  simp [hLast]

theorem scanStartTag_empty
    (hPasses : Passes text)
    (rest : List Char) :
    scanStartTag '<' none (text ++ '/' :: '>' :: rest) = (rest, true) := by
  rcases hPasses '<' ('/' :: '>' :: rest) (by decide) with
    ⟨last, hLast, hScan⟩
  rw [hScan]
  simp [scanStartTag]

------------------------------------------------------------
-- Spellings
------------------------------------------------------------

theorem loop_text
    (hText : '<' ∉ body)
    (depth max : Nat)
    (rest : List Char) :
    loop ⟨depth, max, body ++ rest⟩ = loop ⟨depth, max, rest⟩ := by
  induction body with
  | nil => rw [List.nil_append]
  | cons c body ih =>
      rw [List.mem_cons, not_or] at hText
      rw [List.cons_append, loop_turn (List.cons_ne_nil _ _),
        turn_text _ _ _ (Ne.symm hText.1)]
      exact ih hText.2

/- A start tag, self-closing or not, is taken whole. -/
theorem loop_openTag
    {name space behind : List Char}
    {scanned : List Char × Bool}
    (hTag : WellFormedTag name attributes space)
    (hScan :
      scanStartTag '<' none (Token.tagBody name attributes space ++ behind) =
        scanned)
    (depth max : Nat) :
    loop ⟨depth, max,
        '<' :: (Token.tagBody name attributes space ++ behind)⟩ =
      loop (openTag ⟨depth, max, []⟩ scanned) := by
  cases name with
  | nil => exact absurd rfl hTag.name.1
  | cons c name =>
      have hSign := (hTag.name.2 c List.mem_cons_self).2
      have hTurn := turn_openTag depth max
        (name ++ (attributes.flatMap Attribute.spell ++ space) ++ behind)
        hSign
      rw [loop_turn (List.cons_ne_nil _ _)]
      unfold Token.tagBody at hScan ⊢
      rw [List.cons_append, List.cons_append] at hScan ⊢
      rw [hTurn, hScan]
      rfl

/- A well-formed token is taken whole, with its effect. -/
theorem loop_token
    {token : Token}
    (hToken : token.WellFormed)
    (hLe : depth ≤ max)
    (rest : List Char) :
    loop ⟨depth, max, token.spell ++ rest⟩ =
      loop ⟨depth + token.opened - token.closed,
        Nat.max max (depth + token.opened), rest⟩ := by
  have hSame : Nat.max max depth = max := Nat.max_eq_left hLe
  cases token with
  | text body =>
      simp only [Token.spell, Token.opened, Token.closed, Nat.add_zero,
        Nat.sub_zero, hSame]
      exact loop_text hToken depth max rest
  | comment body =>
      have hSkip : skipPast commentClose (body ++ (commentClose ++ rest)) =
          rest :=
        skipPast_append ['-', '-'] '>' (by decide) hToken rest
      simp only [Token.spell, Token.opened, Token.closed, Nat.add_zero,
        Nat.sub_zero, hSame, List.append_assoc]
      rw [loop_turn (List.cons_ne_nil _ _), turn_comment, hSkip]
  | charData body =>
      have hSkip : skipPast charDataClose
          (body ++ (charDataClose ++ rest)) = rest :=
        skipPast_append [']', ']'] '>' (by decide) hToken rest
      simp only [Token.spell, Token.opened, Token.closed, Nat.add_zero,
        Nat.sub_zero, hSame, List.append_assoc]
      rw [loop_turn (List.cons_ne_nil _ _), turn_charData, hSkip]
  | instruction body =>
      have hSkip : skipPast instructionClose
          (body ++ (instructionClose ++ rest)) = rest :=
        skipPast_append ['?'] '>' (by decide) hToken rest
      simp only [Token.spell, Token.opened, Token.closed, Nat.add_zero,
        Nat.sub_zero, hSame, List.append_assoc]
      rw [loop_turn (List.cons_ne_nil _ _), turn_instruction, hSkip]
  | startTag name attributes space =>
      have hScan := scanStartTag_start (passes_tagBody hToken) rest
      have hTag := loop_openTag hToken hScan depth max
      simp only [Token.spell, Token.opened, Token.closed, Nat.sub_zero,
        List.cons_append, List.append_assoc, List.nil_append]
      exact hTag
  | emptyTag name attributes space =>
      have hScan := scanStartTag_empty (passes_tagBody hToken) rest
      have hTag := loop_openTag hToken hScan depth max
      simp only [Token.spell, Token.opened, Token.closed,
        List.cons_append, List.append_assoc, List.nil_append]
      exact hTag
  | endTag name space =>
      have hClose : ¬['>'] <:+: name ++ space := by
        intro hInfix
        have hMem := hInfix.subset List.mem_cons_self
        rcases List.mem_append.1 hMem with hName | hSpace
        · exact (isPlain_of_isSign (hToken.1.2 _ hName).2).2.2.1 rfl
        · exact (isPlain_of_isSpace (hToken.2 _ hSpace)).2.2.1 rfl
      have hSkip : skipPast ['>'] (name ++ space ++ (['>'] ++ rest)) =
          rest :=
        skipPast_append [] '>' (by decide) hClose rest
      simp only [Token.spell, Token.opened, Token.closed, Nat.add_zero,
        hSame, List.append_assoc] at hSkip ⊢
      rw [loop_turn (List.cons_ne_nil _ _), turn_endTag, hSkip]

/- Tokens in front of anything are taken whole. -/
theorem loop_spell
    (hTokens : ∀ token ∈ tokens, token.WellFormed)
    (hLe : depth ≤ max)
    (rest : List Char) :
    ∃ depth', loop ⟨depth, max, spell tokens ++ rest⟩ =
      loop ⟨depth', Nat.max max (openMax depth tokens), rest⟩ := by
  induction tokens generalizing depth max with
  | nil =>
      refine ⟨depth, ?_⟩
      rw [spell_nil, List.nil_append, openMax]
      have hSame : Nat.max max depth = max := Nat.max_eq_left hLe
      rw [hSame]
  | cons token tokens ih =>
      have hToken := hTokens token List.mem_cons_self
      have hRest := fun other hMem =>
        hTokens other (List.mem_cons_of_mem _ hMem)
      have hLe' : depth + token.opened - token.closed ≤
          Nat.max max (depth + token.opened) :=
        Nat.le_trans (Nat.sub_le _ _) (Nat.le_max_right _ _)
      rcases ih hRest hLe' with ⟨depth', hLoop⟩
      refine ⟨depth', ?_⟩
      rw [spell_cons, List.append_assoc, loop_token hToken hLe, hLoop,
        openMax]
      have hMax : Nat.max (Nat.max max (depth + token.opened))
            (openMax (depth + token.opened - token.closed) tokens) =
          Nat.max max (Nat.max (depth + token.opened)
            (openMax (depth + token.opened - token.closed) tokens)) :=
        Nat.max_assoc _ _ _
      rw [hMax]

/- Whatever follows, the open elements are counted. -/
theorem openMax_le_maxNesting
    (hTokens : ∀ token ∈ tokens, token.WellFormed)
    (rest : List Char) :
    openMax 0 tokens ≤ maxNesting (spell tokens ++ rest) := by
  rcases loop_spell hTokens (Nat.le_refl 0) rest with ⟨depth', hLoop⟩
  unfold maxNesting
  rw [hLoop]
  exact Nat.le_trans (Nat.le_max_right _ _)
    (max_loop_le ⟨depth', Nat.max 0 (openMax 0 tokens), rest⟩)

theorem maxNesting_spell
    (hTokens : ∀ token ∈ tokens, token.WellFormed) :
    maxNesting (spell tokens) = openMax 0 tokens := by
  rcases loop_spell hTokens (Nat.le_refl 0) [] with ⟨depth', hLoop⟩
  rw [List.append_nil, loop_nil] at hLoop
  unfold maxNesting
  rw [hLoop]
  exact Nat.zero_max _

/-
  The scan of a document is exact, and of a text that begins as one it
  never estimates too low.
-/
theorem max_nesting_exact
    {root : Element}
    {tokens : List Token}
    (hDocument : Document root tokens) :
    maxNesting (spell tokens) = root.depth ∧
      ∀ part tail, part <+: tokens →
        openMax 0 part ≤ maxNesting (spell part ++ tail) := by
  constructor
  · rw [maxNesting_spell hDocument.wellFormed,
      hDocument.content.openMax_eq]
  · intro part tail hPart
    apply openMax_le_maxNesting
    intro token hMem
    exact hDocument.wellFormed token (hPart.subset hMem)

/- A start tag in a comment, and one behind a value that ends a tag. -/
theorem max_nesting_exact_hidden :
    maxNesting "<a v='/>'><!--<b>--><c /></a>".toList = 2 := by
  let attr : Attribute := ⟨[' '], ['v'], [], [], '\'', ['/', '>']⟩
  have hAttr : attr.WellFormed := by
    constructor <;> simp [attr, IsSpace, IsName, isSpace, isSign]
  have hMisc : (Token.comment ['<', 'b', '>']).IsMisc := trivial
  have hContent : Content [.element ['a'] [.element ['c'] []]]
      [.startTag ['a'] [attr] [], .comment ['<', 'b', '>'],
        .emptyTag ['c'] [] [' '], .endTag ['a'] []] :=
    .paired [attr] [] [] (.misc hMisc (.empty [] [' '] .nil)) .nil
  have hName : ∀ c ∈ ['a', 'c'], IsName [c] := by
    intro c hMem
    simp only [List.mem_cons, List.not_mem_nil, or_false] at hMem
    rcases hMem with rfl | rfl <;> simp [IsName, isSpace, isSign]
  have hWellFormed : ∀ token ∈
      [Token.startTag ['a'] [attr] [], .comment ['<', 'b', '>'],
        .emptyTag ['c'] [] [' '], .endTag ['a'] []],
      token.WellFormed := by
    intro token hMem
    simp only [List.mem_cons, List.not_mem_nil, or_false] at hMem
    rcases hMem with rfl | rfl | rfl | rfl
    · exact ⟨hName 'a' (by decide), by simp [hAttr], by simp [IsSpace]⟩
    · unfold Token.WellFormed
      decide
    · exact ⟨hName 'c' (by decide), by simp, by simp [IsSpace, isSpace]⟩
    · exact ⟨hName 'a' (by decide), by simp [IsSpace]⟩
  have hExact := (max_nesting_exact ⟨hContent, hWellFormed⟩).1
  have hText : "<a v='/>'><!--<b>--><c /></a>".toList =
      spell [.startTag ['a'] [attr] [], .comment ['<', 'b', '>'],
        .emptyTag ['c'] [] [' '], .endTag ['a'] []] := by
    decide
  rw [hText, hExact]
  simp [Element.depth, depths]

end XmlDoc

end Lsp

end Borzoi
