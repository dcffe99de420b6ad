import Borzoi.Lexer.Token
import Borzoi.Lsp.Position
import Borzoi.Text.Spans
import Mathlib.Data.List.Induction

/-
  The semantic tokens of a buffer.

  One cursor walks the tokens of the lexer and leaves highlighted
  spans, one a line; the spans go on the wire as differences.  The
  lexer is generated, so a run takes its tokens as given: they tile the
  text, split no `\r\n`, and an integer glued to a range operator ends
  in two dots.

  Main declarations:
    * `Cursor.walk`
    * `highlightsWith`
    * `encode`
    * `decode`
    * `highlights_decode`
-/

namespace Borzoi

namespace Lsp

open Text
open Lexer (Token LexError RawItem)

inductive Hl
  | Keyword
  | Comment
  | String
  | Number
  | Operator
  | Function
  | Type
  | Variable
  | Parameter
  | EnumMember
  | Method
  | Property
  | Event
  | Namespace
  | TypeParameter
deriving DecidableEq

namespace Hl

/- `Hl::ALL`, the legend. -/
def ALL :
    List Hl :=
  [.Keyword, .Comment, .String, .Number, .Operator, .Function, .Type,
    .Variable, .Parameter, .EnumMember, .Method, .Property, .Event,
    .Namespace, .TypeParameter]

def index :
    Hl → Nat
  | .Keyword => 0
  | .Comment => 1
  | .String => 2
  | .Number => 3
  | .Operator => 4
  | .Function => 5
  | .Type => 6
  | .Variable => 7
  | .Parameter => 8
  | .EnumMember => 9
  | .Method => 10
  | .Property => 11
  | .Event => 12
  | .Namespace => 13
  | .TypeParameter => 14

theorem legend_index
    (hl : Hl) :
    ALL[hl.index]? = some hl := by
  cases hl <;> rfl

end Hl

def classify :
    Token → Option Hl
  | .And | .As | .Assert | .Base | .Begin | .Class | .Do | .Done
  | .DownTo | .Else | .End | .Exception | .False | .Finally | .For
  | .Fun | .Function | .If | .In | .Inherit | .Lazy | .Let | .Match
  | .Mod | .Module | .Mutable | .New | .Of | .Open | .Or | .Private
  | .Rec | .Sig | .Struct | .Then | .To | .True | .Try | .TypeKw
  | .Val | .When | .While | .With | .Abstract | .Const | .Default
  | .Delegate | .Downcast | .Elif | .Extern | .Fixed | .Global
  | .Inline | .Interface | .Internal | .Member | .Namespace | .Null
  | .Override | .Public | .Return | .Static | .Upcast | .Use | .Void
  | .Yield | .DoBang | .YieldBang | .ReturnBang | .MatchBang
  | .AndBang | .LetBang | .UseBang | .WhileBang => some .Keyword
  | .KeywordString _ => some .Keyword
  | .LineComment | .BlockComment => some .Comment
  | .Char _ | .String | .TripleString | .VerbatimString
  | .InterpString _ => some .String
  | .XInt _ | .XIntSuffixed _ | .XIEEE32 _ | .XIEEE64 _
  | .IntSuffixed _ | .BigNum _ | .Decimal _ | .Float32 _ | .Float64 _
  | .IntDotDot _ | .Int _ => some .Number
  | .Op _ => some .Operator
  | _ => none

structure AbsToken where
  line : Nat
  startChar : Nat
  length : Nat
  hl : Hl
deriving DecidableEq

structure Cursor where
  line : Nat
  character : Nat
deriving DecidableEq

/- The span pending on the current line. -/
def emit
    (cur : Cursor)
    (length : Nat)
    (hl : Option Hl)
    (out : List AbsToken) :
    List AbsToken :=
  if 0 < length then
    match hl with
    | some hl => out ++ [⟨cur.line, cur.character, length, hl⟩]
    | none => out
  else
    out

namespace Cursor

/- The loop over `chars`. -/
def walkLoop
    (hl : Option Hl) :
    List Char → Cursor → Nat → List AbsToken →
      Cursor × Nat × List AbsToken
  | '\r' :: '\n' :: chars, cur, length, out =>
      walkLoop hl chars ⟨cur.line + 1, 0⟩ 0 (emit cur length hl out)
  | '\r' :: chars, cur, length, out =>
      walkLoop hl chars ⟨cur.line + 1, 0⟩ 0 (emit cur length hl out)
  | '\n' :: chars, cur, length, out =>
      walkLoop hl chars ⟨cur.line + 1, 0⟩ 0 (emit cur length hl out)
  | c :: chars, cur, length, out =>
      walkLoop hl chars cur (length + lenUtf16 c) out
  | [], cur, length, out => (cur, length, out)

def walk
    (cur : Cursor)
    (slice : List Char)
    (hl : Option Hl)
    (out : List AbsToken) :
    Cursor × List AbsToken :=
  let (cur, length, out) := walkLoop hl slice cur 0 out
  if 0 < length then
    (⟨cur.line, cur.character + length⟩, emit cur length hl out)
  else
    (cur, out)

end Cursor

/- A range of offsets, as `rowan` holds it. -/
structure TextRange where
  start : Nat
  stop : Nat
deriving DecidableEq

/- Both ends must fit, in order. -/
def toTextRange
    (span : Lexer.Span) :
    Option TextRange :=
  if span.start ≤ u32Max ∧ span.stop ≤ u32Max ∧
      span.start ≤ span.stop then
    some ⟨span.start, span.stop⟩
  else
    none

/- One turn of the loop over the tokens. -/
def highlightToken
    (text : List Char)
    (classifyIdent : TextRange → Option Hl)
    (state : Cursor × List AbsToken)
    (item : RawItem) :
    Option (Cursor × List AbsToken) :=
  (sliceBytes text item.span.start item.span.stop).bind fun slice =>
    match item.result with
    | .ok (.IntDotDot _) =>
        if 2 ≤ (utf8 slice).length then
          let dots := (utf8 slice).length - 2
          (takeBytes slice dots).bind fun digits =>
            (dropBytes slice dots).map fun rest =>
              let state := state.1.walk digits (some .Number) state.2
              state.1.walk rest none state.2
        else
          none
    | .ok (.Ident _) | .ok (.QuotedIdent _) =>
        (toTextRange item.span).map fun range =>
          state.1.walk slice (classifyIdent range) state.2
    | .ok token =>
        some (state.1.walk slice (classify token) state.2)
    | .error _ =>
        some (state.1.walk slice none state.2)

/- The loop over these tokens, from the start of the text. -/
def highlightTokens
    (text : List Char)
    (classifyIdent : TextRange → Option Hl)
    (tokens : List RawItem) :
    Option (Cursor × List AbsToken) :=
  tokens.foldlM (highlightToken text classifyIdent) (⟨0, 0⟩, [])

def highlightsWith
    (text : List Char)
    (classifyIdent : TextRange → Option Hl)
    (tokens : List RawItem) :
    Option (List AbsToken) :=
  (highlightTokens text classifyIdent tokens).map Prod.snd

structure SemanticToken where
  deltaLine : Nat
  deltaStart : Nat
  length : Nat
  tokenType : Nat
  tokenModifiersBitset : Nat
deriving DecidableEq

/- The loop of `encode`; a difference below zero panics. -/
def encodeFrom :
    List AbsToken → Nat → Nat → Option (List SemanticToken)
  | [], _, _ => some []
  | t :: tokens, prevLine, prevStart =>
      if t.line < prevLine then
        none
      else
        let deltaLine := t.line - prevLine
        if deltaLine = 0 ∧ t.startChar < prevStart then
          none
        else
          let deltaStart :=
            if deltaLine = 0 then
              t.startChar - prevStart
            else
              t.startChar
          (encodeFrom tokens t.line t.startChar).map
            (⟨deltaLine, deltaStart, t.length, t.hl.index, 0⟩ :: ·)

def encode
    (tokens : List AbsToken) :
    Option (List SemanticToken) :=
  encodeFrom tokens 0 0

/- What a client makes of the differences. -/
def decodeFrom :
    List SemanticToken → Nat → Nat → Option (List AbsToken)
  | [], _, _ => some []
  | t :: data, prevLine, prevStart =>
      let line := prevLine + t.deltaLine
      let start :=
        if t.deltaLine = 0 then
          prevStart + t.deltaStart
        else
          t.deltaStart
      (Hl.ALL[t.tokenType]?).bind fun hl =>
        (decodeFrom data line start).map
          (⟨line, start, t.length, hl⟩ :: ·)

def decode
    (data : List SemanticToken) :
    Option (List AbsToken) :=
  decodeFrom data 0 0

end Lsp

end Borzoi

namespace Borzoi

namespace Lsp

/- A token in front of another. -/
def AbsToken.Ahead
    (s t : AbsToken) :
    Prop :=
  s.line < t.line ∨
    s.line = t.line ∧ s.startChar + s.length ≤ t.startChar

variable {tokens : List AbsToken}

/- Tokens in order survive the wire. -/
theorem encodeFrom_decodeFrom
    {prevLine prevStart : Nat}
    (hFirst : ∀ t ∈ tokens,
      prevLine < t.line ∨ prevLine = t.line ∧ prevStart ≤ t.startChar)
    (hOrdered : tokens.Pairwise AbsToken.Ahead) :
    ∃ data,
      encodeFrom tokens prevLine prevStart = some data ∧
        decodeFrom data prevLine prevStart = some tokens := by
  induction tokens generalizing prevLine prevStart with
  | nil => exact ⟨[], rfl, rfl⟩
  | cons t tokens ih =>
      rcases List.pairwise_cons.1 hOrdered with ⟨hAhead, hRest⟩
      have hLater : ∀ s ∈ tokens,
          t.line < s.line ∨
            t.line = s.line ∧ t.startChar ≤ s.startChar := by
        intro s hs
        rcases hAhead s hs with hLt | ⟨hEq, hLe⟩
        · exact .inl hLt
        · exact .inr ⟨hEq, Nat.le_trans (Nat.le_add_right _ _) hLe⟩
      rcases ih hLater hRest with ⟨data, hEncode, hDecode⟩
      have hHere := hFirst t List.mem_cons_self
      have hLine : ¬ t.line < prevLine := by omega
      have hStart : ¬ (t.line - prevLine = 0 ∧
          t.startChar < prevStart) := by
        omega
      refine ⟨⟨t.line - prevLine,
        if t.line - prevLine = 0 then
          t.startChar - prevStart
        else
          t.startChar, t.length, t.hl.index, 0⟩ :: data, ?_, ?_⟩
      · rw [encodeFrom, if_neg hLine]
        simp only [if_neg hStart, hEncode, Option.map_some]
      · have hSum : prevLine + (t.line - prevLine) = t.line := by
          omega
        have hColumn : (if t.line - prevLine = 0 then
            prevStart + (if t.line - prevLine = 0 then
              t.startChar - prevStart
            else
              t.startChar)
          else
            (if t.line - prevLine = 0 then
              t.startChar - prevStart
            else
              t.startChar)) = t.startChar := by
          by_cases hSame : t.line - prevLine = 0
          · rw [if_pos hSame, if_pos hSame]
            omega
          · rw [if_neg hSame, if_neg hSame]
        simp only [decodeFrom, hSum, hColumn, hDecode,
          Hl.legend_index, Option.bind_some, Option.map_some]

end Lsp

end Borzoi

namespace Borzoi

namespace Lsp

open Text
open Lexer (Token LexError RawItem)

def AbsToken.toSpan
    (t : AbsToken) :
    Span Hl :=
  ⟨t.line, t.startChar, t.length, t.hl⟩

def Cursor.toPosition
    (cur : Cursor) :
    Position :=
  ⟨cur.line, cur.character⟩

/- The cursor with the width pending and the tokens put out. -/
def penOf
    (cur : Cursor)
    (length : Nat)
    (out : List AbsToken) :
    Pen Hl :=
  ⟨cur.toPosition, length, out.map AbsToken.toSpan⟩

variable {cur : Cursor} {length : Nat} {hl : Option Hl} {out : List AbsToken}

theorem emit_spans :
    (emit cur length hl out).map AbsToken.toSpan =
      (penOf cur length out).put hl := by
  unfold emit Pen.put
  cases hl with
  | none =>
      split_ifs <;> rfl
  | some hl =>
      show _ = if 0 < length then _ else _
      split_ifs
      · simp [penOf, Pen.span, AbsToken.toSpan, Cursor.toPosition]
      · rfl

/- The loop over the characters is the pen over their glyphs. -/
theorem walkLoop_pen
    (chars : List Char)
    {cur' : Cursor}
    {length' : Nat}
    {out' : List AbsToken}
    (hLoop : Cursor.walkLoop hl chars cur length out =
      (cur', length', out')) :
    penOf cur' length' out' =
      (glyphs chars).foldl (Pen.draw lenUtf16 hl)
        (penOf cur length out) := by
  have hBreak : ∀ cur length out,
      penOf ⟨cur.line + 1, 0⟩ 0 (emit cur length hl out) =
        ⟨⟨cur.line + 1, 0⟩, 0, (penOf cur length out).put hl⟩ := by
    intro cur length out
    rw [← emit_spans]
    rfl
  fun_induction Cursor.walkLoop hl chars cur length out with
  | case1 chars cur length out ih =>
      rw [ih hLoop, hBreak, glyphs]
      rfl
  | case2 chars cur length out hNot ih =>
      have hWhole : Whole ['\r'] chars := by
        intro _ hHead
        cases chars with
        | nil => cases hHead
        | cons c chars =>
            cases hHead
            exact hNot chars rfl
      rw [ih hLoop, hBreak, glyphs_single hWhole]
      rfl
  | case3 chars cur length out ih =>
      have hWhole : Whole ['\n'] chars := by
        intro hLast
        cases hLast
      rw [ih hLoop, hBreak, glyphs_single hWhole]
      rfl
  | case4 c chars cur length out _ hReturn hFeed ih =>
      have hWhole : Whole [c] chars := by
        intro hLast
        cases hLast
        exact absurd rfl hReturn
      have hSingle : Glyph.single c = .char c := by
        rw [Glyph.single, if_neg hReturn, if_neg hFeed]
      rw [ih hLoop, glyphs_single hWhole, hSingle]
      rfl
  | case5 cur length out =>
      cases hLoop
      rfl

/- A walk over a slice is a stroke. -/
theorem walk_pen
    (cur : Cursor)
    (slice : List Char)
    (hl : Option Hl)
    (out : List AbsToken) :
    penOf (cur.walk slice hl out).1 0 (cur.walk slice hl out).2 =
      (penOf cur 0 out).stroke lenUtf16 hl (glyphs slice) := by
  unfold Cursor.walk
  rcases hLoop : Cursor.walkLoop hl slice cur 0 out with
    ⟨cur', length', out'⟩
  have hPen := walkLoop_pen slice hLoop
  rw [Pen.stroke, ← hPen]
  dsimp only
  by_cases hPos : 0 < length'
  · rw [if_pos hPos]
    show (⟨_, 0, (emit cur' length' hl out').map _⟩ : Pen Hl) = _
    rw [emit_spans]
    rfl
  · have hZero : length' = 0 := by omega
    rw [if_neg hPos, hZero]
    cases hl <;> rfl

/- The tokens tile the text up to an offset, cut no pair in two, and an
   integer glued to a range operator ends in its two dots. -/
inductive Lexed
    (text : List Char) :
    List RawItem → Nat → Prop
  | nil :
      Lexed text [] 0
  | snoc (tokens : List RawItem) (start : Nat)
      (result : Except LexError Token) (stop : Nat)
      (hTokens : Lexed text tokens start)
      (hLe : start ≤ stop)
      (hStop : Addressable text stop)
      (hDots : ∀ lexeme, result = .ok (.IntDotDot lexeme) →
        ∃ digits,
          sliceBytes text start stop = some (digits ++ ['.', '.'])) :
      Lexed text (tokens ++ [⟨result, ⟨start, stop⟩⟩]) stop

/- Where the last token ends. -/
def endOf
    (tokens : List RawItem) :
    Nat :=
  match tokens.getLast? with
  | some item => item.span.stop
  | none => 0

/- The highlight of a token, and where it ends. -/
def highlightOf
    (classifyIdent : TextRange → Option Hl)
    (item : RawItem) :
    Option (Nat × Hl) :=
  match item.result with
  | .ok (.IntDotDot _) => some (item.span.stop - 2, .Number)
  | .ok (.Ident _) | .ok (.QuotedIdent _) =>
      (classifyIdent ⟨item.span.start, item.span.stop⟩).map
        (item.span.stop, ·)
  | .ok token => (classify token).map (item.span.stop, ·)
  | .error _ => none

/- The character at this offset is part of a highlighted token. -/
def Highlighted
    (classifyIdent : TextRange → Option Hl)
    (tokens : List RawItem)
    (offset : Nat)
    (hl : Hl) :
    Prop :=
  ∃ item ∈ tokens, ∃ stop,
    highlightOf classifyIdent item = some (stop, hl) ∧
      item.span.start ≤ offset ∧ offset < stop

variable {text : List Char} {classifyIdent : TextRange → Option Hl}
variable {tokens : List RawItem} {start stop : Nat}

theorem endOf_snoc
    (item : RawItem) :
    endOf (tokens ++ [item]) = item.span.stop := by
  rw [endOf, List.getLast?_concat]

theorem Lexed.endOf_eq
    (hLexed : Lexed text tokens stop) :
    endOf tokens = stop := by
  cases hLexed with
  | nil => rfl
  | snoc tokens start result _ _ _ _ _ => exact endOf_snoc _

/- The tokens in front are a stream too. -/
theorem Lexed.front
    {rest : List RawItem}
    (hLexed : Lexed text (tokens ++ rest) stop) :
    ∃ mid, Lexed text tokens mid ∧ mid ≤ stop := by
  induction rest using List.reverseRecOn generalizing stop with
  | nil =>
      rw [List.append_nil] at hLexed
      exact ⟨stop, hLexed, Nat.le_refl _⟩
  | append_singleton rest item ih =>
      rw [← List.append_assoc] at hLexed
      generalize hAll : tokens ++ rest ++ [item] = all at hLexed
      cases hLexed with
      | nil => exact absurd hAll (by simp)
      | snoc tokens' start result _ hTokens hLe _ _ =>
          rcases List.append_inj' hAll rfl with ⟨rfl, -⟩
          rcases ih hTokens with ⟨mid, hMid, hMidLe⟩
          exact ⟨mid, hMid, Nat.le_trans hMidLe hLe⟩

theorem highlightOf_le
    {item : RawItem}
    {hl : Hl}
    (hHighlight : highlightOf classifyIdent item = some (stop, hl)) :
    stop ≤ item.span.stop := by
  have hMap : ∀ o : Option Hl,
      o.map (item.span.stop, ·) = some (stop, hl) →
      stop ≤ item.span.stop := by
    intro o hSome
    rcases Option.map_eq_some_iff.1 hSome with ⟨_, -, hPair⟩
    cases hPair
    exact Nat.le_refl _
  unfold highlightOf at hHighlight
  split at hHighlight
  · cases hHighlight
    exact Nat.sub_le _ _
  · exact hMap _ hHighlight
  · exact hMap _ hHighlight
  · exact hMap _ hHighlight
  · cases hHighlight

theorem Lexed.stop_le
    (hLexed : Lexed text tokens stop) :
    ∀ item ∈ tokens, item.span.stop ≤ stop := by
  induction hLexed with
  | nil =>
      intro item hItem
      cases hItem
  | snoc tokens start result stop _ hLe _ _ ih =>
      intro item hItem
      rcases List.mem_append.1 hItem with hOld | hNew
      · exact Nat.le_trans (ih item hOld) hLe
      · cases List.mem_singleton.1 hNew
        exact Nat.le_refl _

/- A token behind the others highlights from where they end. -/
theorem highlighted_snoc
    (hLexed : Lexed text tokens start)
    (result : Except LexError Token)
    (stop offset : Nat)
    (hl : Hl) :
    Highlighted classifyIdent
        (tokens ++ [⟨result, ⟨start, stop⟩⟩]) offset hl ↔
      if offset < start then
        Highlighted classifyIdent tokens offset hl
      else
        ∃ until_,
          highlightOf classifyIdent ⟨result, ⟨start, stop⟩⟩ =
              some (until_, hl) ∧
            offset < until_ := by
  by_cases hBefore : offset < start
  · rw [if_pos hBefore]
    constructor
    · rintro ⟨item, hItem, until_, hHighlight, hFrom, hTo⟩
      rcases List.mem_append.1 hItem with hOld | hNew
      · exact ⟨item, hOld, until_, hHighlight, hFrom, hTo⟩
      · cases List.mem_singleton.1 hNew
        exact absurd hBefore (Nat.not_lt_of_le hFrom)
    · rintro ⟨item, hItem, hAt⟩
      exact ⟨item, List.mem_append_left _ hItem, hAt⟩
  · rw [if_neg hBefore]
    constructor
    · rintro ⟨item, hItem, until_, hHighlight, hFrom, hTo⟩
      rcases List.mem_append.1 hItem with hOld | hNew
      · have hUntil := highlightOf_le hHighlight
        have hStop := hLexed.stop_le item hOld
        omega
      · cases List.mem_singleton.1 hNew
        exact ⟨until_, hHighlight, hTo⟩
    · rintro ⟨until_, hHighlight, hTo⟩
      exact ⟨_, List.mem_append_right _ List.mem_cons_self, until_,
        hHighlight, Nat.le_of_not_lt hBefore, hTo⟩

------------------------------------------------------------
-- One token
------------------------------------------------------------

/- A token is an integer glued to dots, a name, or coloured by its
   kind. -/
theorem token_cases
    (result : Except LexError Token) :
    (∃ lexeme, result = .ok (.IntDotDot lexeme)) ∨
      (∀ text classifyIdent state span,
        highlightToken text classifyIdent state ⟨result, span⟩ =
            ((sliceBytes text span.start span.stop).bind fun slice =>
              (toTextRange span).map fun range =>
                state.1.walk slice (classifyIdent range) state.2) ∧
          highlightOf classifyIdent ⟨result, span⟩ =
            (classifyIdent ⟨span.start, span.stop⟩).map
              (span.stop, ·)) ∨
      ∃ colour, ∀ text classifyIdent state span,
        highlightToken text classifyIdent state ⟨result, span⟩ =
            ((sliceBytes text span.start span.stop).bind fun slice =>
              some (state.1.walk slice colour state.2)) ∧
          highlightOf classifyIdent ⟨result, span⟩ =
            colour.map (span.stop, ·) := by
  cases result with
  | error e =>
      exact .inr (.inr ⟨none, fun _ _ _ _ => ⟨rfl, rfl⟩⟩)
  | ok token =>
      cases token
      case IntDotDot lexeme => exact .inl ⟨lexeme, rfl⟩
      case Ident lexeme =>
        exact .inr (.inl fun _ _ _ _ => ⟨rfl, rfl⟩)
      case QuotedIdent lexeme =>
        exact .inr (.inl fun _ _ _ _ => ⟨rfl, rfl⟩)
      all_goals exact .inr (.inr ⟨_, fun _ _ _ _ => ⟨rfl, rfl⟩⟩)

/- The colours of the characters are those of a table of offsets. -/
def Coloured
    (colourAt : Nat → Hl → Prop)
    (ps : List (Inked Hl)) :
    Prop :=
  ∀ front c colour back,
    ps = front ++ (.char c, colour) :: back →
    ∀ hl, colour = some hl ↔
      colourAt (glyphBytes (front.map Prod.fst)) hl

variable {state : Cursor × List AbsToken} {ps : List (Inked Hl)}

theorem Coloured.congr
    {colourAt colourAt' : Nat → Hl → Prop}
    (hColoured : Coloured colourAt ps)
    (hSame : ∀ offset < glyphBytes (ps.map Prod.fst), ∀ hl,
      colourAt offset hl ↔ colourAt' offset hl) :
    Coloured colourAt' ps := by
  intro front c colour back hSplit hl
  rw [hColoured front c colour back hSplit hl]
  apply hSame
  rw [hSplit, List.map_append]
  exact glyphBytes_lt _ _ _

theorem Coloured.append
    {colourAt : Nat → Hl → Prop}
    {ps : List (Inked Hl)}
    (hColoured : Coloured colourAt ps)
    {gs : List Glyph}
    {colour : Option Hl}
    (hColour : ∀ offset,
      glyphBytes (ps.map Prod.fst) ≤ offset →
      offset < glyphBytes (ps.map Prod.fst) + glyphBytes gs →
      ∀ hl, colour = some hl ↔ colourAt offset hl) :
    Coloured colourAt (ps ++ gs.map fun g => (g, colour)) := by
  intro front c colour' back hSplit hl
  rcases List.append_eq_append_iff.1 hSplit with
    ⟨more, hFront, hGs⟩ | ⟨more, hPs, hBack⟩
  · -- the character is one of the new ones
    rcases List.map_eq_append_iff.1 hGs with
      ⟨before, rest, rfl, hBefore, hRest⟩
    rcases List.map_eq_cons_iff.1 hRest with
      ⟨g, behind, rfl, hHere, -⟩
    cases hHere
    have hAt : glyphBytes (front.map Prod.fst) =
        glyphBytes (ps.map Prod.fst) + glyphBytes before := by
      rw [hFront, ← hBefore, List.map_append, glyphBytes_append,
        List.map_map]
      congr 2
      exact List.map_id before
    have hLt := glyphBytes_lt before (.char c) behind
    apply hColour
    · omega
    · omega
  · cases more with
    | nil =>
        rw [List.append_nil] at hPs
        cases gs with
        | nil => cases hBack
        | cons g gs =>
            cases hBack
            have hPos := glyphBytes_cons_pos (.char c) gs
            rw [hPs] at hColour
            exact hColour _ (Nat.le_refl _) (by omega) hl
    | cons p more =>
        rw [List.cons_append] at hBack
        cases hBack
        exact hColoured front c colour' more hPs hl

/- What holds once the loop is through these tokens. -/
structure Progress
    (text : List Char)
    (classifyIdent : TextRange → Option Hl)
    (tokens : List RawItem)
    (stop : Nat)
    (state : Cursor × List AbsToken)
    (ps : List (Inked Hl)) :
    Prop where
  through : ∃ hs, glyphs text = ps.map Prod.fst ++ hs
  stops : stop = glyphBytes (ps.map Prod.fst)
  drawn : Drawn lenUtf16 none ps (penOf state.1 0 state.2)
  coloured : Coloured (Highlighted classifyIdent tokens) ps

/- The slice of a token between two glyphs. -/
theorem slice_between
    {gs hs : List Glyph}
    (hGlyphs : glyphs text = gs ++ hs)
    (hLe : glyphBytes gs ≤ stop)
    (hStop : Addressable text stop) :
    ∃ mid hs',
      glyphs text = gs ++ (mid ++ hs') ∧
        stop = glyphBytes gs + glyphBytes mid ∧
        sliceBytes text (glyphBytes gs) stop = some (glyphChars mid) ∧
        glyphs (glyphChars mid) = mid := by
  rcases addressable_iff.1 hStop with ⟨gs', hs', hGlyphs', rfl⟩
  have hMid : ∃ mid, gs' = gs ++ mid := by
    rcases cut_trichotomy (hGlyphs.symm.trans hGlyphs') with
      rfl | ⟨g, more, rfl⟩ | ⟨g, more, rfl⟩
    · exact ⟨[], (List.append_nil gs).symm⟩
    · exact ⟨g :: more, rfl⟩
    · exact absurd hLe (Nat.not_le_of_lt (glyphBytes_lt gs' g more))
  rcases hMid with ⟨mid, rfl⟩
  rw [List.append_assoc] at hGlyphs'
  refine ⟨mid, hs', hGlyphs', glyphBytes_append gs mid, ?_, ?_⟩
  · have hText : text =
        glyphChars gs ++ (glyphChars mid ++ glyphChars hs') := by
      rw [← glyphChars_append, ← glyphChars_append, ← hGlyphs',
        glyphChars_glyphs]
    rw [hText, glyphBytes_append]
    exact sliceBytes_append
  · have hRest := (glyphs_cut hGlyphs').2.2
    exact (glyphs_cut hRest).2.1

theorem map_fst_inked
    (gs : List Glyph)
    (colour : Option Hl) :
    (gs.map fun g => (g, colour)).map Prod.fst = gs := by
  rw [List.map_map]
  exact List.map_id gs

/- A pen that is up may take any colour. -/
theorem drawn_any
    {old : Option Hl}
    (hDrawn : Drawn lenUtf16 old ps (penOf state.1 0 state.2))
    (hPut : (penOf state.1 0 state.2).put old =
      state.2.map AbsToken.toSpan)
    (colour : Option Hl) :
    Drawn lenUtf16 colour ps (penOf state.1 0 state.2) := by
  have hLift := hDrawn.lift colour
  rw [Pen.lift, hPut] at hLift
  exact hLift

/- A walk over one slice in one colour. -/
theorem drawn_walk
    (hDrawn : Drawn lenUtf16 none ps (penOf state.1 0 state.2))
    (slice : List Char)
    (colour : Option Hl) :
    Drawn lenUtf16 none
      (ps ++ (glyphs slice).map fun g => (g, colour))
      (penOf (state.1.walk slice colour state.2).1 0
        (state.1.walk slice colour state.2).2) := by
  rw [walk_pen]
  exact (drawn_any hDrawn rfl colour).stroke _ none

/- The loop over one more token. -/
theorem Progress.step
    {state : Cursor × List AbsToken}
    {ps : List (Inked Hl)}
    (hProgress : Progress text classifyIdent tokens start state ps)
    (hLexed : Lexed text tokens start)
    {result : Except LexError Token}
    (hLe : start ≤ stop)
    (hStop : Addressable text stop)
    (hFits : stop ≤ u32Max)
    (hDots : ∀ lexeme, result = .ok (.IntDotDot lexeme) →
      ∃ digits,
        sliceBytes text start stop = some (digits ++ ['.', '.'])) :
    ∃ state' ps',
      highlightToken text classifyIdent state
          ⟨result, ⟨start, stop⟩⟩ = some state' ∧
        Progress text classifyIdent
          (tokens ++ [⟨result, ⟨start, stop⟩⟩]) stop state' ps' := by
  rcases hProgress with ⟨⟨hs, hThrough⟩, rfl, hDrawn, hColoured⟩
  rcases slice_between hThrough hLe hStop with
    ⟨mid, hs', hGlyphs, rfl, hSlice, hSelf⟩
  generalize hStart : glyphBytes (ps.map Prod.fst) = start at *
  have hOld : Coloured (Highlighted classifyIdent
      (tokens ++ [⟨result, ⟨start, start + glyphBytes mid⟩⟩])) ps := by
    apply hColoured.congr
    intro offset hLt hl
    rw [hStart] at hLt
    rw [highlighted_snoc hLexed, if_pos hLt]
  -- a token of one colour
  have hPlain : ∀ colour,
      highlightOf classifyIdent
          ⟨result, ⟨start, start + glyphBytes mid⟩⟩ =
        colour.map (start + glyphBytes mid, ·) →
      Progress text classifyIdent
        (tokens ++ [⟨result, ⟨start, start + glyphBytes mid⟩⟩])
        (start + glyphBytes mid)
        (state.1.walk (glyphChars mid) colour state.2)
        (ps ++ mid.map fun g => (g, colour)) := by
    intro colour hHighlight
    refine ⟨⟨hs', ?_⟩, ?_, ?_, ?_⟩
    · rw [List.map_append, map_fst_inked, List.append_assoc]
      exact hGlyphs
    · rw [List.map_append, map_fst_inked, glyphBytes_append, hStart]
    · have hWalk := drawn_walk hDrawn (glyphChars mid) colour
      rw [hSelf] at hWalk
      exact hWalk
    · apply hOld.append
      intro offset hFrom hTo hl
      rw [hStart] at hFrom hTo
      rw [highlighted_snoc hLexed, if_neg (Nat.not_lt_of_le hFrom),
        hHighlight]
      constructor
      · rintro rfl
        exact ⟨_, rfl, hTo⟩
      · rintro ⟨until_, hSome, -⟩
        rcases Option.map_eq_some_iff.1 hSome with ⟨hl', hColour, hPair⟩
        cases hPair
        exact hColour
  rcases token_cases result with
    ⟨lexeme, rfl⟩ | hIdent | ⟨colour, hColour⟩
  · rcases hDots lexeme rfl with ⟨digits, hDigits⟩
    rw [hSlice] at hDigits
    have hMid : glyphChars mid = digits ++ ['.', '.'] :=
      Option.some.inj hDigits
    have hWhole : Whole digits ['.', '.'] := by
      intro _ hHead
      cases hHead
    have hParts : mid = glyphs digits ++ glyphs ['.', '.'] := by
      rw [← hSelf, hMid, glyphs_append hWhole]
    have hBytes : glyphBytes (glyphs digits) = (utf8 digits).length := by
      rw [glyphBytes, glyphChars_glyphs]
    have hLength : (utf8 (digits ++ ['.', '.'])).length =
        (utf8 digits).length + 2 := by
      rw [utf8_append, List.length_append]
      rfl
    have hTotal : glyphBytes mid = (utf8 digits).length + 2 := by
      rw [glyphBytes, hMid, hLength]
    have hTake : takeBytes (digits ++ ['.', '.'])
        (utf8 digits).length = some digits :=
      takeBytes_append
    have hDrop : dropBytes (digits ++ ['.', '.'])
        (utf8 digits).length = some ['.', '.'] :=
      dropBytes_append
    have hFirst := drawn_walk hDrawn digits (some .Number)
    have hSecond := drawn_walk hFirst ['.', '.'] none
    refine ⟨_, _, ?_, ⟨hs', ?_⟩, ?_, hSecond, ?_⟩
    · rw [highlightToken, hSlice, hMid, Option.bind_some]
      have hTwo : 2 ≤ (utf8 (digits ++ ['.', '.'])).length := by
        omega
      have hDotsAt : (utf8 (digits ++ ['.', '.'])).length - 2 =
          (utf8 digits).length := by
        omega
      simp only [if_pos hTwo, hDotsAt, hTake, hDrop, Option.bind_some,
        Option.map_some]
    · rw [List.map_append, List.map_append, map_fst_inked,
        map_fst_inked, List.append_assoc, List.append_assoc,
        ← List.append_assoc (glyphs digits), ← hParts]
      exact hGlyphs
    · rw [List.map_append, List.map_append, map_fst_inked,
        map_fst_inked, List.append_assoc, ← hParts, glyphBytes_append,
        hStart]
    · have hNumber : ∀ offset, start ≤ offset → ∀ hl,
          Highlighted classifyIdent
              (tokens ++ [⟨.ok (.IntDotDot lexeme),
                ⟨start, start + glyphBytes mid⟩⟩]) offset hl ↔
            hl = .Number ∧ offset < start + (utf8 digits).length := by
        intro offset hFrom hl
        rw [highlighted_snoc hLexed, if_neg (Nat.not_lt_of_le hFrom)]
        have hEnd : start + glyphBytes mid - 2 =
            start + (utf8 digits).length := by
          omega
        constructor
        · rintro ⟨until_, hSome, hTo⟩
          cases hSome
          exact ⟨rfl, hEnd ▸ hTo⟩
        · rintro ⟨rfl, hTo⟩
          exact ⟨_, rfl, hEnd.symm ▸ hTo⟩
      have hDigitsColoured := @Coloured.append _ _ hOld (glyphs digits)
        (some .Number) (by
          intro offset hFrom hTo hl
          rw [hStart] at hFrom hTo
          rw [hBytes] at hTo
          rw [hNumber offset hFrom hl]
          constructor
          · intro hSome
            cases hSome
            exact ⟨rfl, hTo⟩
          · rintro ⟨rfl, -⟩
            rfl)
      apply hDigitsColoured.append
      intro offset hFrom _ hl
      rw [List.map_append, map_fst_inked, glyphBytes_append, hStart,
        hBytes] at hFrom
      rw [hNumber offset (Nat.le_trans (Nat.le_add_right _ _) hFrom) hl]
      constructor
      · intro hNone
        cases hNone
      · rintro ⟨-, hTo⟩
        exact absurd hTo (Nat.not_lt_of_le hFrom)
  · rcases hIdent text classifyIdent state
      ⟨start, start + glyphBytes mid⟩ with ⟨hToken, hHighlight⟩
    refine ⟨_, _, ?_, hPlain _ hHighlight⟩
    have hRange : toTextRange ⟨start, start + glyphBytes mid⟩ =
        some ⟨start, start + glyphBytes mid⟩ :=
      if_pos ⟨Nat.le_trans hLe hFits, hFits, hLe⟩
    rw [hToken, hSlice, Option.bind_some, hRange, Option.map_some]
  · rcases hColour text classifyIdent state
      ⟨start, start + glyphBytes mid⟩ with ⟨hToken, hHighlight⟩
    refine ⟨_, _, ?_, hPlain _ hHighlight⟩
    rw [hToken, hSlice, Option.bind_some]

------------------------------------------------------------
-- The whole stream
------------------------------------------------------------

theorem highlightTokens_progress
    (classifyIdent : TextRange → Option Hl)
    (hLexed : Lexed text tokens stop)
    (hFits : stop ≤ u32Max) :
    ∃ state ps,
      highlightTokens text classifyIdent tokens = some state ∧
        Progress text classifyIdent tokens stop state ps := by
  induction hLexed with
  | nil =>
      refine ⟨(⟨0, 0⟩, []), [], rfl, ⟨_, rfl⟩, rfl, Drawn.start, ?_⟩
      intro front c colour back hNil
      cases front <;> cases hNil
  | snoc tokens start result stop hTokens hLe hStop hDots ih =>
      rcases ih (Nat.le_trans hLe hFits) with
        ⟨state, ps, hRun, hProgress⟩
      rcases hProgress.step hTokens hLe hStop hFits hDots with
        ⟨state', ps', hToken, hNext⟩
      refine ⟨state', ps', ?_, hNext⟩
      rw [highlightTokens, List.foldlM_append]
      have hFront : tokens.foldlM (highlightToken text classifyIdent)
          (⟨0, 0⟩, []) = some state :=
        hRun
      rw [hFront]
      show (highlightToken text classifyIdent state
        ⟨result, ⟨start, stop⟩⟩).bind _ = _
      rw [hToken]
      rfl

/- The cursor is at the position of the offset it has reached. -/
theorem Progress.cursor
    (hSize : (utf8 text).length ≤ u32Max)
    (hProgress : Progress text classifyIdent tokens stop state ps) :
    offsetToPosition text stop = some state.1.toPosition := by
  rcases hProgress.through with ⟨hs, hGlyphs⟩
  rw [hProgress.stops, offsetToPosition_cut hSize hGlyphs]
  exact congrArg some hProgress.drawn.reach

/- A run of characters of one line, no break among them. -/
def AbsToken.OnLine
    (text : List Char)
    (t : AbsToken) :
    Prop :=
  ∃ a chars b,
    text = a ++ (chars ++ b) ∧
      (∀ c ∈ chars, c ≠ '\r' ∧ c ≠ '\n') ∧
      offsetToPosition text (utf8 a).length =
        some ⟨t.line, t.startChar⟩ ∧
      (chars.map lenUtf16).sum = t.length

def AbsToken.Covers
    (t : AbsToken)
    (line column : Nat) :
    Prop :=
  t.line = line ∧ t.startChar ≤ column ∧
    column < t.startChar + t.length

/- A highlighted character that is no break takes up this column. -/
def HighlightedAt
    (text : List Char)
    (classifyIdent : TextRange → Option Hl)
    (tokens : List RawItem)
    (line column : Nat)
    (hl : Hl) :
    Prop :=
  ∃ a c b pos,
    text = a ++ c :: b ∧ c ≠ '\r' ∧ c ≠ '\n' ∧
      Highlighted classifyIdent tokens (utf8 a).length hl ∧
      offsetToPosition text (utf8 a).length = some pos ∧
      pos.line = line ∧ pos.character ≤ column ∧
      column < pos.character + lenUtf16 c

theorem glyphChars_inked
    (colour : Option Hl)
    (chars : List Char) :
    glyphChars ((inked colour chars).map Prod.fst) = chars := by
  induction chars with
  | nil => rfl
  | cons c chars ih =>
      show glyphChars (.char c :: (inked colour chars).map Prod.fst) = _
      rw [glyphChars_cons, ih]
      rfl

variable {state : Cursor × List AbsToken} {ps : List (Inked Hl)}

theorem Progress.onLine
    (hSize : (utf8 text).length ≤ u32Max)
    (hProgress : Progress text classifyIdent tokens stop state ps)
    {t : AbsToken}
    (hMem : t ∈ state.2) :
    0 < t.length ∧ t.OnLine text := by
  rcases hProgress.drawn.of t.toSpan (List.mem_map_of_mem hMem) with
    ⟨⟨front, chars, back, rfl, hStart, hLength⟩, hPos⟩
  rcases hProgress.through with ⟨hs, hGlyphs⟩
  rw [List.map_append, List.map_append, List.append_assoc,
    List.append_assoc] at hGlyphs
  refine ⟨hPos, glyphChars (front.map Prod.fst), chars,
    glyphChars (back.map Prod.fst ++ hs), ?_, ?_, ?_, hLength⟩
  · have hText := glyphChars_glyphs text
    rw [hGlyphs, glyphChars_append, glyphChars_append,
      glyphChars_inked] at hText
    exact hText.symm
  · intro c hc
    have hIn : Glyph.char c ∈ glyphs text := by
      rw [hGlyphs]
      apply List.mem_append_right
      apply List.mem_append_left
      apply List.mem_map.2
      exact ⟨(.char c, some t.toSpan.colour),
        List.mem_map.2 ⟨c, hc, rfl⟩, rfl⟩
    exact glyphs_proper hIn c rfl
  · rw [← glyphBytes, offsetToPosition_cut hSize hGlyphs]
    exact congrArg some hStart

/- The columns of the spans are those of the highlighted characters. -/
theorem Progress.covers_iff
    (hSize : (utf8 text).length ≤ u32Max)
    (hProgress : Progress text classifyIdent tokens
      (utf8 text).length state ps)
    (line column : Nat)
    (hl : Hl) :
    (∃ t ∈ state.2, t.hl = hl ∧ t.Covers line column) ↔
      HighlightedAt text classifyIdent tokens line column hl := by
  have hSpans : (∃ t ∈ state.2, t.hl = hl ∧ t.Covers line column) ↔
      ∃ s ∈ state.2.map AbsToken.toSpan,
        s.colour = hl ∧ s.Covers line column := by
    constructor
    · rintro ⟨t, ht, hAt⟩
      exact ⟨t.toSpan, List.mem_map_of_mem ht, hAt⟩
    · rintro ⟨s, hs, hAt⟩
      rcases List.mem_map.1 hs with ⟨t, ht, rfl⟩
      exact ⟨t, ht, hAt⟩
  have hExact := hProgress.drawn.exact line column hl
  rw [hSpans]
  refine hExact.trans ?_
  rcases hProgress.through with ⟨hs, hGlyphs⟩
  constructor
  · rintro ⟨front, c, back, rfl, hLine, hLow, hHigh⟩
    have hColour := (hProgress.coloured front c (some hl) back rfl hl).1
      rfl
    rw [List.map_append, List.append_assoc, List.map_cons,
      List.cons_append] at hGlyphs
    have hIn : Glyph.char c ∈ glyphs text := by
      rw [hGlyphs]
      exact List.mem_append_right _ List.mem_cons_self
    rcases glyphs_proper hIn c rfl with ⟨hReturn, hFeed⟩
    have hText := glyphChars_glyphs text
    rw [hGlyphs, glyphChars_append, glyphChars_cons] at hText
    exact ⟨glyphChars (front.map Prod.fst), c, _, _, hText.symm,
      hReturn, hFeed, hColour, offsetToPosition_cut hSize hGlyphs, hLine,
      hLow, hHigh⟩
  · rintro ⟨a, c, b, pos, rfl, hReturn, hFeed, hColour, hPos, hLine,
      hLow, hHigh⟩
    -- the tokens reach the end of the text
    have hNone : hs = [] := by
      cases hs with
      | nil => rfl
      | cons g hs =>
          have hLt := glyphBytes_lt (ps.map Prod.fst) g hs
          rw [← hGlyphs, ← hProgress.stops, glyphBytes,
            glyphChars_glyphs] at hLt
          exact absurd hLt (Nat.lt_irrefl _)
    have hAround := glyphs_around hReturn hFeed a b
    have hBytes : glyphBytes (glyphs a) = (utf8 a).length := by
      rw [glyphBytes, glyphChars_glyphs]
    rw [← hBytes, offsetToPosition_cut hSize hAround] at hPos
    cases hPos
    rw [hNone, List.append_nil, hAround] at hGlyphs
    rcases List.map_eq_append_iff.1 hGlyphs.symm with
      ⟨front, rest, rfl, hFront, hRest⟩
    rcases List.map_eq_cons_iff.1 hRest with
      ⟨⟨g, colour⟩, back, rfl, hHere, -⟩
    cases hHere
    have hSome := (hProgress.coloured front c colour back rfl hl).2
    rw [hFront, hBytes] at hSome
    rw [hSome hColour]
    rw [← hFront] at hLine hLow hHigh
    exact ⟨front, c, back, rfl, hLine, hLow, hHigh⟩

theorem Progress.ordered
    (hProgress : Progress text classifyIdent tokens stop state ps) :
    state.2.Pairwise AbsToken.Ahead := by
  exact (List.pairwise_map (f := AbsToken.toSpan)).1
    hProgress.drawn.ordered

/- The cursor keeps step with the offsets, and the stream decodes to
   spans in order that cover the highlighted characters. -/
theorem highlights_decode
    (text : List Char)
    (classifyIdent : TextRange → Option Hl)
    (tokens : List RawItem)
    (hLexed : Lexed text tokens (utf8 text).length)
    (hFits : (utf8 text).length ≤ u32Max) :
    (∀ front rest,
      tokens = front ++ rest →
      ∃ state,
        highlightTokens text classifyIdent front = some state ∧
          offsetToPosition text (endOf front) =
            some state.1.toPosition) ∧
      ∃ spans data,
        highlightsWith text classifyIdent tokens = some spans ∧
          spans.Pairwise AbsToken.Ahead ∧
          (∀ t ∈ spans, 0 < t.length ∧ t.OnLine text) ∧
          encode spans = some data ∧
          decode data = some spans ∧
          ∀ line column hl,
            (∃ t ∈ spans, t.hl = hl ∧ t.Covers line column) ↔
              HighlightedAt text classifyIdent tokens
                line column hl := by
  constructor
  · rintro front rest rfl
    rcases hLexed.front with ⟨mid, hFront, hMid⟩
    rcases highlightTokens_progress classifyIdent
        hFront (Nat.le_trans hMid hFits) with
      ⟨state, ps, hRun, hProgress⟩
    refine ⟨state, hRun, ?_⟩
    rw [hFront.endOf_eq]
    exact hProgress.cursor hFits
  · rcases highlightTokens_progress classifyIdent
        hLexed hFits with
      ⟨state, ps, hRun, hProgress⟩
    have hFirst : ∀ t ∈ state.2,
        0 < t.line ∨ 0 = t.line ∧ 0 ≤ t.startChar := by
      intro t _
      omega
    rcases encodeFrom_decodeFrom hFirst hProgress.ordered with
      ⟨data, hEncode, hDecode⟩
    refine ⟨state.2, data, ?_, hProgress.ordered,
      fun t ht => hProgress.onLine hFits ht, hEncode, hDecode,
      hProgress.covers_iff hFits⟩
    rw [highlightsWith, hRun]
    rfl

/- A range of integers over two lines: the dots stay plain. -/
theorem highlights_decode_range :
    ∃ spans data,
      highlightsWith ['1', '.', '.', '\n', '9', '2'] (fun _ => none)
          [⟨.ok (.IntDotDot ['1', '.', '.']), ⟨0, 3⟩⟩,
            ⟨.ok .Newline, ⟨3, 4⟩⟩, ⟨.ok (.Int ['9', '2']), ⟨4, 6⟩⟩] =
        some spans ∧
        spans.length = 2 ∧
        encode spans = some data ∧ decode data = some spans := by
  have hRange : Lexed ['1', '.', '.', '\n', '9', '2']
      ([] ++ [⟨.ok (.IntDotDot ['1', '.', '.']), ⟨0, 3⟩⟩]) 3 := by
    apply Lexed.snoc [] 0 _ _ .nil (Nat.zero_le _)
    · exact ⟨['1', '.', '.'], ['\n', '9', '2'], rfl,
        (fun hReturn => by cases hReturn), rfl⟩
    · intro lexeme _
      exact ⟨['1'], rfl⟩
  have hBreak := Lexed.snoc _ 3 (.ok .Newline) 4 hRange (by decide)
    ⟨['1', '.', '.', '\n'], ['9', '2'], rfl,
      (fun hReturn => by cases hReturn), rfl⟩
    (fun lexeme hDots => by cases hDots)
  have hLexed := Lexed.snoc _ 4 (.ok (.Int ['9', '2'])) 6 hBreak (by decide)
    ⟨['1', '.', '.', '\n', '9', '2'], [], rfl, Whole.nil_right _, rfl⟩
    (fun lexeme hDots => by cases hDots)
  rcases highlights_decode ['1', '.', '.', '\n', '9', '2'] (fun _ => none) _
      hLexed (by decide) with
    ⟨-, spans, data, hSpans, -, -, hEncode, hDecode, -⟩
  refine ⟨spans, data, hSpans, ?_, hEncode, hDecode⟩
  cases hSpans
  rfl

def longName :
    List Char :=
  List.replicate (u32Max + 1) 'a'

theorem longName_length :
    (utf8 longName).length = u32Max + 1 := by
  unfold longName
  rw [utf8_replicate (b := 0x61) (by decide), List.length_replicate]

/- A name that ends past the machine's words stops the server. -/
theorem long_identifier_panics :
    ∃ text tokens,
      Lexed text tokens (utf8 text).length ∧
        ∀ classifyIdent,
          highlightsWith text classifyIdent tokens = none := by
  refine ⟨longName,
    [] ++ [⟨.ok (.Ident longName), ⟨0, u32Max + 1⟩⟩], ?_, ?_⟩
  · rw [longName_length]
    apply Lexed.snoc [] 0 _ _ .nil (Nat.zero_le _)
    · exact ⟨_, [], (List.append_nil _).symm, Whole.nil_right _,
        longName_length.symm⟩
    · intro lexeme hDots
      cases hDots
  · intro classifyIdent
    have hRange : toTextRange ⟨0, u32Max + 1⟩ = none :=
      if_neg (fun hFits => Nat.not_succ_le_self _ hFits.2.1)
    have hToken : highlightToken longName
        classifyIdent (⟨0, 0⟩, [])
        ⟨.ok (.Ident longName), ⟨0, u32Max + 1⟩⟩ = none := by
      unfold highlightToken
      dsimp only
      rw [hRange]
      cases sliceBytes longName 0 (u32Max + 1) <;> rfl
    rw [highlightsWith, highlightTokens, List.nil_append,
      List.foldlM_cons, hToken]
    rfl

end Lsp

end Borzoi
