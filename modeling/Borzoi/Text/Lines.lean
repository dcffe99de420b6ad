import Borzoi.Text.Slice
import Mathlib.Algebra.GroupWithZero.Nat

/-
  Lines and columns of a text.

  A line ends at `\r\n`, `\r` or `\n`, and a pair is one break.  A
  glyph is a break or another character; the offsets that lie between
  two glyphs are the addressable ones.  Columns count the widths of
  the characters since the last break.
-/

variable {c : Char} {g : Glyph} {gs hs : List Glyph}

namespace Borzoi

namespace Text

/- A line break or a character. -/
inductive Glyph where
  | crlf
  | cr
  | lf
  | char (c : Char)
deriving DecidableEq

namespace Glyph

def chars :
    Glyph → List Char
  | crlf => ['\r', '\n']
  | cr => ['\r']
  | lf => ['\n']
  | char c => [c]

def isBreak :
    Glyph → Bool
  | char _ => false
  | _ => true

/- A character on its own, not followed by the rest of a pair. -/
def single
    (c : Char) :
    Glyph :=
  if c = '\r' then
    .cr
  else if c = '\n' then
    .lf
  else
    .char c

theorem single_chars
    (c : Char) :
    (single c).chars = [c] := by
  unfold single
  split_ifs with hReturn hFeed
  · rw [hReturn]
    rfl
  · rw [hFeed]
    rfl
  · rfl

/- No break stands as a character. -/
def Proper
    (g : Glyph) :
    Prop :=
  ∀ c, g = .char c → c ≠ '\r' ∧ c ≠ '\n'

theorem single_proper
    (c : Char) :
    (single c).Proper := by
  intro d hChar
  unfold single at hChar
  split_ifs at hChar with hReturn hFeed
  cases hChar
  exact ⟨hReturn, hFeed⟩

end Glyph

def glyphs :
    List Char → List Glyph
  | '\r' :: '\n' :: rest => .crlf :: glyphs rest
  | c :: rest => .single c :: glyphs rest
  | [] => []

def glyphChars
    (gs : List Glyph) :
    List Char :=
  gs.flatMap Glyph.chars

@[simp]
theorem glyphChars_nil :
    glyphChars [] = [] := rfl

@[simp]
theorem glyphChars_cons
    (g : Glyph)
    (gs : List Glyph) :
    glyphChars (g :: gs) = g.chars ++ glyphChars gs :=
  List.flatMap_cons

@[simp]
theorem glyphChars_append
    (gs hs : List Glyph) :
    glyphChars (gs ++ hs) = glyphChars gs ++ glyphChars hs :=
  List.flatMap_append

theorem glyphChars_glyphs
    (text : List Char) :
    glyphChars (glyphs text) = text := by
  fun_induction glyphs text with
  | case1 rest ih =>
      rw [glyphChars_cons, ih]
      rfl
  | case2 c rest hNot ih =>
      rw [glyphChars_cons, ih, Glyph.single_chars]
      rfl
  | case3 => rfl

/- A cut that leaves no pair in two. -/
def Whole
    (a b : List Char) :
    Prop :=
  a.getLast? = some '\r' → b.head? ≠ some '\n'

theorem Whole.nil_left
    (b : List Char) :
    Whole [] b := by
  intro hLast
  cases hLast

theorem Whole.nil_right
    (a : List Char) :
    Whole a [] := by
  intro _ hHead
  cases hHead

/- The cut behind a character of a longer text. -/
theorem Whole.tail
    {c d : Char}
    {a b : List Char}
    (hWhole : Whole (c :: d :: a) b) :
    Whole (d :: a) b := by
  intro hLast
  apply hWhole
  rw [List.getLast?_cons_cons]
  exact hLast

theorem glyphs_single
    {rest : List Char}
    (hWhole : Whole [c] rest) :
    glyphs (c :: rest) = .single c :: glyphs rest := by
  rw [glyphs]
  rintro rest' rfl rfl
  exact hWhole rfl rfl

theorem glyphs_append
    {a b : List Char}
    (hWhole : Whole a b) :
    glyphs (a ++ b) = glyphs a ++ glyphs b := by
  fun_induction glyphs a with
  | case1 rest ih =>
      have hRest : Whole rest b := by
        cases rest with
        | nil => exact Whole.nil_left b
        | cons d rest => exact hWhole.tail.tail
      show glyphs ('\r' :: '\n' :: (rest ++ b)) = _
      rw [glyphs, ih hRest]
      rfl
  | case2 c rest hNot ih =>
      have hRest : Whole rest b := by
        cases rest with
        | nil => exact Whole.nil_left b
        | cons d rest => exact hWhole.tail
      rw [List.cons_append, glyphs_single, ih hRest]
      · rfl
      · intro hLast hHead
        cases rest with
        | nil =>
            exact hWhole hLast hHead
        | cons d rest =>
            cases hLast
            cases hHead
            exact hNot rest rfl rfl
  | case3 => rfl

variable {text : List Char}

/- The first glyph, and the text behind it. -/
theorem glyphs_cons
    (hGlyphs : glyphs text = g :: gs) :
    ∃ rest,
      text = g.chars ++ rest ∧ glyphs rest = gs ∧
        Whole g.chars rest ∧ g.Proper := by
  fun_cases glyphs text with
  | case1 rest =>
      rw [glyphs] at hGlyphs
      cases hGlyphs
      refine ⟨rest, rfl, rfl, ?_, ?_⟩
      · intro hLast
        cases hLast
      · intro c hChar
        cases hChar
  | case2 c rest hNot =>
      rw [glyphs.eq_2 _ _ hNot] at hGlyphs
      cases hGlyphs
      rw [Glyph.single_chars]
      refine ⟨rest, rfl, rfl, ?_, Glyph.single_proper c⟩
      intro hLast hHead
      cases hLast
      cases rest with
      | nil => cases hHead
      | cons d rest =>
          cases hHead
          exact hNot rest rfl rfl
  | case3 =>
      cases hGlyphs

/- A cut between glyphs leaves no pair in two. -/
theorem glyphs_cut
    (hGlyphs : glyphs text = gs ++ hs) :
    Whole (glyphChars gs) (glyphChars hs) ∧
      glyphs (glyphChars gs) = gs ∧ glyphs (glyphChars hs) = hs := by
  induction gs generalizing text with
  | nil =>
      rw [List.nil_append] at hGlyphs
      refine ⟨Whole.nil_left _, rfl, ?_⟩
      rw [← hGlyphs, glyphChars_glyphs]
  | cons g gs ih =>
      rcases glyphs_cons hGlyphs with ⟨rest, rfl, hRest, hFirst, -⟩
      rcases ih hRest with ⟨hWhole, hGs, hHs⟩
      have hText : rest = glyphChars gs ++ glyphChars hs := by
        have hCut : glyphs rest = gs ++ hs := hRest
        rw [← glyphChars_append, ← hCut, glyphChars_glyphs]
      have hFront : Whole g.chars (glyphChars gs) := by
        intro hLast hHead
        apply hFirst hLast
        rw [hText, List.head?_append, hHead]
        rfl
      have hSelf : glyphs g.chars = [g] := by
        have hJoin := glyphs_append hFirst
        rw [hGlyphs, hRest, List.cons_append] at hJoin
        have hCut : [g] ++ (gs ++ hs) = glyphs g.chars ++ (gs ++ hs) :=
          hJoin
        exact (List.append_cancel_right hCut).symm
      refine ⟨?_, ?_, hHs⟩
      · intro hLast
        rw [glyphChars_cons, List.getLast?_append] at hLast
        cases hGs' : (glyphChars gs).getLast? with
        | some c =>
            rw [hGs'] at hLast
            exact hWhole (hGs'.trans hLast)
        | none =>
            rw [hGs'] at hLast
            have hEmpty := List.getLast?_eq_none_iff.1 hGs'
            rw [hEmpty, List.nil_append] at hText
            rw [← hText]
            exact hFirst hLast
      · rw [glyphChars_cons, glyphs_append hFront, hSelf, hGs]
        rfl

theorem glyphs_proper
    (hMem : g ∈ glyphs text) :
    g.Proper := by
  rcases List.append_of_mem hMem with ⟨gs, hs, hGlyphs⟩
  rcases glyphs_cons (glyphs_cut hGlyphs).2.2 with
    ⟨_, _, _, _, hProper⟩
  exact hProper

/- A character that is no break is a glyph of its own. -/
theorem glyphs_around
    (hReturn : c ≠ '\r')
    (hFeed : c ≠ '\n')
    (a b : List Char) :
    glyphs (a ++ c :: b) = glyphs a ++ .char c :: glyphs b := by
  have hFront : Whole a (c :: b) := by
    intro _ hHead
    cases hHead
    exact hFeed rfl
  have hBack : Whole [c] b := by
    intro hLast
    cases hLast
    exact absurd rfl hReturn
  have hSingle : Glyph.single c = .char c := by
    rw [Glyph.single, if_neg hReturn, if_neg hFeed]
  rw [glyphs_append hFront, glyphs_single hBack, hSingle]

/- The offsets between two characters that leave no pair in two. -/
def Addressable
    (text : List Char)
    (offset : Nat) :
    Prop :=
  ∃ a b,
    text = a ++ b ∧ Whole a b ∧ offset = (utf8 a).length

theorem Addressable.le
    {offset : Nat}
    (hAddressable : Addressable text offset) :
    offset ≤ (utf8 text).length := by
  rcases hAddressable with ⟨a, b, rfl, -, rfl⟩
  rw [utf8_append, List.length_append]
  exact Nat.le_add_right _ _

def glyphBytes
    (gs : List Glyph) :
    Nat :=
  (utf8 (glyphChars gs)).length

@[simp]
theorem glyphBytes_append
    (gs hs : List Glyph) :
    glyphBytes (gs ++ hs) = glyphBytes gs + glyphBytes hs := by
  simp [glyphBytes]

theorem glyphBytes_cons_pos
    (g : Glyph)
    (gs : List Glyph) :
    0 < glyphBytes (g :: gs) := by
  cases g with
  | char c =>
      have hPos := c.utf8Size_pos
      simp only [glyphBytes, glyphChars_cons, Glyph.chars, utf8_append,
        utf8_cons, List.length_append, String.length_utf8EncodeChar]
      omega
  | crlf => exact Nat.zero_lt_succ _
  | cr => exact Nat.zero_lt_succ _
  | lf => exact Nat.zero_lt_succ _

/- The addressable offsets are those between two glyphs. -/
theorem addressable_iff
    {offset : Nat} :
    Addressable text offset ↔
      ∃ gs hs,
        glyphs text = gs ++ hs ∧ offset = glyphBytes gs := by
  constructor
  · rintro ⟨a, b, rfl, hWhole, rfl⟩
    refine ⟨glyphs a, glyphs b, glyphs_append hWhole, ?_⟩
    rw [glyphBytes, glyphChars_glyphs]
  · rintro ⟨gs, hs, hGlyphs, rfl⟩
    refine ⟨glyphChars gs, glyphChars hs, ?_, (glyphs_cut hGlyphs).1, rfl⟩
    rw [← glyphChars_append, ← hGlyphs, glyphChars_glyphs]

/- Of two cuts one lies behind the other. -/
theorem cut_trichotomy
    {gs hs gs' hs' : List Glyph}
    (hSame : gs ++ hs = gs' ++ hs') :
    gs = gs' ∨
      (∃ g more, gs' = gs ++ g :: more) ∨
      ∃ g more, gs = gs' ++ g :: more := by
  rcases List.append_eq_append_iff.1 hSame with
    ⟨more, hMore, _⟩ | ⟨more, hMore, _⟩
  · cases more with
    | nil => exact .inl (by rw [hMore, List.append_nil])
    | cons g more => exact .inr (.inl ⟨g, more, hMore⟩)
  · cases more with
    | nil => exact .inl (by rw [hMore, List.append_nil])
    | cons g more => exact .inr (.inr ⟨g, more, hMore⟩)

theorem glyphBytes_lt
    (gs : List Glyph)
    (g : Glyph)
    (more : List Glyph) :
    glyphBytes gs < glyphBytes (gs ++ g :: more) := by
  have hPos := glyphBytes_cons_pos g more
  rw [glyphBytes_append]
  omega

/- The bytes in front tell the cut. -/
theorem glyphBytes_inj
    {gs hs gs' hs' : List Glyph}
    (hSame : gs ++ hs = gs' ++ hs')
    (hBytes : glyphBytes gs = glyphBytes gs') :
    gs = gs' := by
  rcases cut_trichotomy hSame with hEq | ⟨g, more, rfl⟩ | ⟨g, more, rfl⟩
  · exact hEq
  · exact absurd hBytes (Nat.ne_of_lt (glyphBytes_lt gs g more))
  · exact absurd hBytes (Nat.ne_of_gt (glyphBytes_lt gs' g more))

end Text

end Borzoi

namespace Borzoi

namespace Text

/- A line, and the width in front on it. -/
structure Position where
  line : Nat
  character : Nat
deriving DecidableEq

namespace Position

def Before
    (p q : Position) :
    Prop :=
  p.line < q.line ∨ p.line = q.line ∧ p.character < q.character

theorem Before.trans
    {p q r : Position}
    (hFirst : p.Before q)
    (hSecond : q.Before r) :
    p.Before r := by
  unfold Before at *
  omega

theorem Before.irrefl
    (p : Position) :
    ¬ p.Before p := by
  unfold Before
  omega

variable (width : Char → Nat)

/- The position behind a glyph. -/
def past
    (p : Position) :
    Glyph → Position
  | .char c => ⟨p.line, p.character + width c⟩
  | _ => ⟨p.line + 1, 0⟩

/- The position behind a run of glyphs. -/
def across
    (p : Position)
    (gs : List Glyph) :
    Position :=
  gs.foldl (past width) p

@[simp]
theorem across_cons
    (p : Position)
    (g : Glyph)
    (gs : List Glyph) :
    p.across width (g :: gs) = (p.past width g).across width gs := rfl

@[simp]
theorem across_append
    (p : Position)
    (gs hs : List Glyph) :
    p.across width (gs ++ hs) = (p.across width gs).across width hs :=
  List.foldl_append

variable {width}

theorem before_past
    (hWidth : ∀ c, 0 < width c)
    (p : Position)
    (g : Glyph) :
    p.Before (p.past width g) := by
  unfold Before past
  cases g with
  | char c =>
      have hPos := hWidth c
      exact .inr ⟨rfl, Nat.lt_add_of_pos_right hPos⟩
  | crlf => exact .inl (Nat.lt_succ_self _)
  | cr => exact .inl (Nat.lt_succ_self _)
  | lf => exact .inl (Nat.lt_succ_self _)

/- Every glyph leads on. -/
theorem before_across
    (hWidth : ∀ c, 0 < width c)
    (p : Position)
    (g : Glyph)
    (gs : List Glyph) :
    p.Before (p.across width (g :: gs)) := by
  induction gs generalizing p g with
  | nil =>
      exact before_past hWidth p g
  | cons h gs ih =>
      exact (before_past hWidth p g).trans (ih (p.past width g) h)

/- Lines are the breaks gone over. -/
theorem across_line
    (p : Position)
    (gs : List Glyph) :
    (p.across width gs).line = p.line + gs.countP Glyph.isBreak := by
  induction gs generalizing p with
  | nil => rfl
  | cons g gs ih =>
      rw [across_cons, ih (p.past width g), List.countP_cons]
      cases g with
      | char c => simp [past, Glyph.isBreak]
      | crlf => simp [past, Glyph.isBreak]; omega
      | cr => simp [past, Glyph.isBreak]; omega
      | lf => simp [past, Glyph.isBreak]; omega

theorem line_le_across
    (p : Position)
    (gs : List Glyph) :
    p.line ≤ (p.across width gs).line := by
  rw [across_line]
  exact Nat.le_add_right _ _

end Position

/- The line breaks of a text. -/
def breaks
    (text : List Char) :
    Nat :=
  (glyphs text).countP Glyph.isBreak

end Text

end Borzoi

------------------------------------------------------------
-- Finding a position
------------------------------------------------------------

variable {p : Position}

namespace Borzoi

namespace Text

variable (width : Char → Nat)

/- The glyphs in front of the line `n` lines down, all where the text
   ends before. -/
def linesBefore :
    Nat → List Glyph → List Glyph
  | 0, _ => []
  | _ + 1, [] => []
  | n + 1, .char c :: gs => .char c :: linesBefore (n + 1) gs
  | n + 1, g :: gs => g :: linesBefore n gs

/- The characters of the line that lie within the columns, the last
   one with both its halves. -/
def columnsBefore :
    Nat → List Glyph → List Glyph
  | k + 1, .char c :: gs => .char c :: columnsBefore (k + 1 - width c) gs
  | _, _ => []

@[simp]
theorem linesBefore_zero
    (gs : List Glyph) :
    linesBefore 0 gs = [] := by
  cases gs <;> rfl

@[simp]
theorem columnsBefore_zero
    (gs : List Glyph) :
    columnsBefore width 0 gs = [] := by
  cases gs <;> rfl

theorem linesBefore_split
    (p : Position)
    (n : Nat)
    (gs : List Glyph) :
    ∃ rest,
      gs = linesBefore n gs ++ rest ∧
        (p.across width (linesBefore n gs) =
            ⟨p.line + n, if n = 0 then p.character else 0⟩ ∨
          rest = [] ∧
            (p.across width (linesBefore n gs)).line < p.line + n) := by
  induction gs generalizing p n with
  | nil =>
      cases n with
      | zero => exact ⟨[], rfl, .inl rfl⟩
      | succ n =>
          refine ⟨[], rfl, .inr ⟨rfl, ?_⟩⟩
          show p.line < p.line + (n + 1)
          omega
  | cons g gs ih =>
      cases n with
      | zero => exact ⟨g :: gs, rfl, .inl rfl⟩
      | succ n =>
          have hBreak : linesBefore (n + 1) (g :: gs) =
              g :: linesBefore n gs →
              p.past width g = ⟨p.line + 1, 0⟩ →
              ∃ rest,
                g :: gs = linesBefore (n + 1) (g :: gs) ++ rest ∧
                  (p.across width (linesBefore (n + 1) (g :: gs)) =
                      ⟨p.line + (n + 1),
                        if n + 1 = 0 then p.character else 0⟩ ∨
                    rest = [] ∧
                      (p.across width (linesBefore (n + 1)
                        (g :: gs))).line < p.line + (n + 1)) := by
            intro hLines hPast
            rcases ih ⟨p.line + 1, 0⟩ n with ⟨rest, hSplit, hEnd⟩
            refine ⟨rest, ?_, ?_⟩
            · rw [hLines, List.cons_append, ← hSplit]
            · have hLine : p.line + (n + 1) = p.line + 1 + n := by
                omega
              rw [hLines, Position.across_cons, hPast, hLine]
              simpa using hEnd
          cases g with
          | char c =>
              rcases ih (p.past width (.char c)) (n + 1) with
                ⟨rest, hSplit, hEnd⟩
              refine ⟨rest, ?_, ?_⟩
              · rw [linesBefore, List.cons_append, ← hSplit]
              · rw [linesBefore, Position.across_cons]
                simpa [Position.past] using hEnd
          | crlf => exact hBreak rfl rfl
          | cr => exact hBreak rfl rfl
          | lf => exact hBreak rfl rfl

/- How the search for a position ends. -/
inductive Stops
    (p target : Position) :
    List Glyph → List Glyph → Prop
  | exact (found more : List Glyph)
      (hAt : p.across width found = target) :
      Stops p target found more
  | ends (found more : List Glyph)
      (hLine : (p.across width found).line = target.line)
      (hShort : (p.across width found).character < target.character)
      (hMore : ∀ c rest, more ≠ .char c :: rest) :
      Stops p target found more
  | inside (init : List Glyph) (c : Char) (more : List Glyph)
      (hLine : (p.across width init).line = target.line)
      (hBefore : (p.across width init).character < target.character)
      (hAfter : target.character <
        (p.across width init).character + width c) :
      Stops p target (init ++ [.char c]) more

variable {width}

theorem Stops.append
    {p target : Position}
    {front back more : List Glyph}
    (hStops : Stops width (p.across width front) target back more) :
    Stops width p target (front ++ back) more := by
  cases hStops with
  | exact _ _ hAt =>
      apply Stops.exact
      rw [Position.across_append]
      exact hAt
  | ends _ _ hLine hShort hMore =>
      rw [← Position.across_append] at hLine hShort
      exact .ends _ _ hLine hShort hMore
  | inside init c _ hLine hBefore hAfter =>
      rw [← Position.across_append] at hLine hBefore hAfter
      rw [← List.append_assoc]
      exact .inside _ c _ hLine hBefore hAfter

theorem columnsBefore_stops
    (p : Position)
    (k : Nat)
    (gs : List Glyph) :
    ∃ more,
      gs = columnsBefore width k gs ++ more ∧
        Stops width p ⟨p.line, p.character + k⟩
          (columnsBefore width k gs) more := by
  induction gs generalizing p k with
  | nil =>
      cases k with
      | zero =>
          exact ⟨[], rfl, .exact _ _ rfl⟩
      | succ k =>
          refine ⟨[], rfl, .ends _ _ rfl ?_ (by simp)⟩
          exact Nat.lt_add_of_pos_right (Nat.succ_pos k)
  | cons g gs ih =>
      have hStay : columnsBefore width k (g :: gs) = [] →
          (∀ c rest, g :: gs ≠ .char c :: rest) →
          ∃ more,
            g :: gs = columnsBefore width k (g :: gs) ++ more ∧
              Stops width p ⟨p.line, p.character + k⟩
                (columnsBefore width k (g :: gs)) more := by
        intro hNone hMore
        refine ⟨g :: gs, ?_, ?_⟩
        · rw [hNone, List.nil_append]
        · rw [hNone]
          cases k with
          | zero => exact .exact _ _ rfl
          | succ k =>
              refine .ends _ _ rfl ?_ hMore
              exact Nat.lt_add_of_pos_right (Nat.succ_pos k)
      cases g with
      | crlf =>
          refine hStay ?_ (by simp)
          cases k <;> rfl
      | cr =>
          refine hStay ?_ (by simp)
          cases k <;> rfl
      | lf =>
          refine hStay ?_ (by simp)
          cases k <;> rfl
      | char c =>
          cases k with
          | zero =>
              exact ⟨.char c :: gs, rfl, .exact _ _ rfl⟩
          | succ k =>
              rw [columnsBefore]
              by_cases hLe : width c ≤ k + 1
              · rcases ih (p.past width (.char c)) (k + 1 - width c) with
                  ⟨more, hSplit, hStops⟩
                have hSum : p.character + width c + (k + 1 - width c) =
                    p.character + (k + 1) := by
                  omega
                refine ⟨more, ?_, ?_⟩
                · rw [List.cons_append, ← hSplit]
                · refine @Stops.append width _ _ [.char c] _ _ ?_
                  rw [← hSum]
                  exact hStops
              · -- the columns end inside the character
                have hZero : k + 1 - width c = 0 := by omega
                rw [hZero, columnsBefore_zero]
                refine ⟨gs, rfl, .inside [] c gs rfl ?_ ?_⟩
                · exact Nat.lt_add_of_pos_right (Nat.succ_pos k)
                · show p.character + (k + 1) < p.character + width c
                  omega

variable (width)

/- The glyphs in front of a position. -/
def glyphsBefore
    (target : Position)
    (gs : List Glyph) :
    List Glyph :=
  linesBefore target.line gs ++
    columnsBefore width target.character
      (gs.drop (linesBefore target.line gs).length)

variable {width}

variable {found more rest : List Glyph} {target : Position}

theorem glyphsBefore_eq
    (hSplit : gs = linesBefore target.line gs ++ rest) :
    glyphsBefore width target gs =
      linesBefore target.line gs ++
        columnsBefore width target.character rest := by
  have hSame := congrArg
    (List.drop (linesBefore target.line gs).length) hSplit
  rw [List.drop_left] at hSame
  rw [glyphsBefore, hSame]

/- The search goes over the text in front of it, and stops on the line
   where the text has one. -/
theorem glyphsBefore_stops
    (target : Position)
    (gs : List Glyph) :
    ∃ more,
      gs = glyphsBefore width target gs ++ more ∧
        (target.line ≤ ((⟨0, 0⟩ : Position).across width gs).line →
          Stops width ⟨0, 0⟩ target (glyphsBefore width target gs)
            more) := by
  rcases linesBefore_split width ⟨0, 0⟩ target.line gs with
    ⟨rest, hSplit, hEnd⟩
  rcases @columnsBefore_stops width ⟨target.line, 0⟩
      target.character rest with
    ⟨more, hRest, hStops⟩
  rw [Nat.zero_add] at hStops
  refine ⟨more, ?_, ?_⟩
  · rw [glyphsBefore_eq hSplit, List.append_assoc, ← hRest]
    exact hSplit
  · intro hLine
    rw [glyphsBefore_eq hSplit]
    rcases hEnd with hAt | ⟨hNone, hShort⟩
    · have hStart : (⟨0, 0⟩ : Position).across width
          (linesBefore target.line gs) = ⟨target.line, 0⟩ := by
        simpa using hAt
      apply Stops.append
      rw [hStart]
      exact hStops
    · rw [hNone, List.append_nil] at hSplit
      rw [← hSplit, Nat.zero_add] at hShort
      exact absurd hLine (Nat.not_le_of_lt hShort)

theorem Stops.line
    {p target : Position}
    {found more : List Glyph}
    (hStops : Stops width p target found more) :
    (p.across width found).line = target.line := by
  cases hStops with
  | exact _ _ hAt => rw [hAt]
  | ends _ _ hLine _ _ => exact hLine
  | inside init c _ hLine _ _ =>
      rw [Position.across_append]
      exact hLine

/- A longer run leads further. -/
theorem Position.before_longer
    (hWidth : ∀ c, 0 < width c)
    (p : Position)
    (gs : List Glyph)
    (g : Glyph)
    (more : List Glyph) :
    (p.across width gs).Before (p.across width (gs ++ g :: more)) := by
  rw [Position.across_append]
  exact Position.before_across hWidth _ g more

theorem Position.before_append
    (hWidth : ∀ c, 0 < width c)
    (hBefore : target.Before (p.across width gs))
    (more : List Glyph) :
    target.Before (p.across width (gs ++ more)) := by
  cases more with
  | nil =>
      rw [List.append_nil]
      exact hBefore
  | cons g more =>
      exact hBefore.trans (before_longer hWidth p gs g more)

/- Behind a search that ended early no glyph stays on the line. -/
theorem Stops.beyond
    (hLine : (p.across width found).line = target.line)
    (hMore : ∀ c rest', g :: more ++ rest ≠ .char c :: rest') :
    target.line < (p.across width (found ++ g :: more)).line := by
  have hPast : (p.across width found).past width g =
      ⟨target.line + 1, 0⟩ := by
    rw [← hLine]
    cases g with
    | char c => exact absurd rfl (hMore c (more ++ rest))
    | crlf => rfl
    | cr => rfl
    | lf => rfl
  rw [Position.across_append, Position.across_cons, hPast]
  exact Position.line_le_across ⟨target.line + 1, 0⟩ more

section

variable (hWidth : ∀ c, 0 < width c)

include hWidth

/- Past the end of a search the target is passed. -/
theorem Stops.passed
    (hStops : Stops width p target found (g :: more ++ rest)) :
    target.Before (p.across width (found ++ g :: more)) := by
  have hLonger := Position.before_longer hWidth p found g more
  cases hStops with
  | exact _ _ hAt =>
      rw [hAt] at hLonger
      exact hLonger
  | ends _ _ hLine _ hMore =>
      exact .inl (beyond hLine hMore)
  | inside init c _ hLine _ hAfter =>
      have hTarget : target.Before
          (p.across width (init ++ [.char c])) := by
        rw [Position.across_append]
        exact .inr ⟨hLine.symm, hAfter⟩
      exact hTarget.trans hLonger

/- A column inside a character leads behind it. -/
theorem Stops.of_inside
    (hStops : Stops width p target found more)
    {a : List Glyph}
    {b : List Glyph}
    (hSame : found ++ more = a ++ .char c :: b)
    (hLine : (p.across width a).line = target.line)
    (hBefore : (p.across width a).character < target.character)
    (hAfter : target.character <
      (p.across width a).character + width c) :
    found = a ++ [.char c] := by
  have hFront : (p.across width a).Before target :=
    .inr ⟨hLine, hBefore⟩
  have hBehind : target.Before (p.across width (a ++ [.char c])) := by
    rw [Position.across_append]
    exact .inr ⟨hLine.symm, hAfter⟩
  rcases cut_trichotomy hSame with rfl | ⟨g, rest, rfl⟩ | ⟨g, rest, rfl⟩
  · -- the search stopped in front of the character
    have hMore := List.append_cancel_left hSame
    rw [hMore] at hStops
    cases hStops with
    | exact _ _ hAt =>
        rw [hAt] at hFront
        exact absurd hFront (Position.Before.irrefl _)
    | ends _ _ _ _ hMore =>
        exact absurd rfl (hMore c b)
    | inside init d _ hLineInit _ hAfterInit =>
        have hPast : target.Before
            (p.across width (init ++ [.char d])) := by
          rw [Position.across_append]
          exact .inr ⟨hLineInit.symm, hAfterInit⟩
        exact absurd (hPast.trans hFront) (Position.Before.irrefl _)
  · -- the search stopped further in front
    rw [List.append_assoc] at hSame
    rw [List.append_cancel_left hSame] at hStops
    exact absurd ((hStops.passed hWidth).trans hFront)
      (Position.Before.irrefl _)
  · rw [List.append_assoc, List.append_cancel_left_eq,
      List.cons_append, List.cons.injEq] at hSame
    rcases hSame with ⟨rfl, -⟩
    rcases List.eq_nil_or_concat rest with rfl | ⟨rest, h, rfl⟩
    · rfl
    · -- the search went over the character and further
      have hFound : a ++ .char c :: rest.concat h =
          a ++ [.char c] ++ rest ++ [h] := by
        simp only [List.concat_eq_append, List.append_assoc,
          List.cons_append, List.nil_append]
      have hOver := Position.before_append hWidth hBehind rest
      have hFar := Position.before_append hWidth hOver [h]
      rw [hFound] at hStops
      generalize hAll : a ++ [.char c] ++ rest ++ [h] = found at *
      cases hStops with
      | exact _ _ hAt =>
          rw [hAt] at hFar
          exact absurd hFar (Position.Before.irrefl _)
      | ends _ _ hLineFound hShort _ =>
          have hBack : (p.across width found).Before target :=
            .inr ⟨hLineFound, hShort⟩
          exact absurd (hFar.trans hBack) (Position.Before.irrefl _)
      | inside init d _ hLineInit hBeforeInit _ =>
          have hInit := (List.append_inj' hAll rfl).1
          have hBack : (p.across width init).Before target :=
            .inr ⟨hLineInit, hBeforeInit⟩
          rw [hInit] at hOver
          exact absurd (hOver.trans hBack) (Position.Before.irrefl _)

/- Away from such columns the search finds the last place that is not
   behind the target. -/
theorem Stops.last
    (hStops : Stops width p target found more)
    (hNot : ∀ a c b,
      found ++ more = a ++ .char c :: b →
      (p.across width a).line = target.line →
      (p.across width a).character < target.character →
      ¬ target.character < (p.across width a).character + width c) :
    (p.across width found).character ≤ target.character ∧
      ∀ pre post,
        found ++ more = pre ++ post →
        (p.across width pre).line = target.line →
        (p.across width pre).character ≤ target.character →
        ∃ rest, found = pre ++ rest := by
  constructor
  · cases hStops with
    | exact _ _ hAt => exact Nat.le_of_eq (congrArg _ hAt)
    | ends _ _ _ hShort _ => exact Nat.le_of_lt hShort
    | inside init c _ hLine hBefore hAfter =>
        have hSame : init ++ [.char c] ++ more =
            init ++ .char c :: more := by
          rw [List.append_assoc]
          rfl
        exact absurd hAfter (hNot init c more hSame hLine hBefore)
  · intro pre post hSame hLine hLe
    rcases cut_trichotomy hSame with rfl | ⟨g, rest, rfl⟩ | ⟨g, rest, rfl⟩
    · exact ⟨[], (List.append_nil _).symm⟩
    · rw [List.append_assoc] at hSame
      rw [List.append_cancel_left hSame] at hStops
      have hPassed := hStops.passed hWidth
      unfold Position.Before at hPassed
      omega
    · exact ⟨g :: rest, rfl⟩

/- A target that lies between two glyphs is found there. -/
theorem Stops.at_target
    (hStops : Stops width p (p.across width gs) found more)
    (hSame : found ++ more = gs ++ hs) :
    found = gs := by
  have hNot : ∀ a c b,
      found ++ more = a ++ .char c :: b →
      (p.across width a).line = (p.across width gs).line →
      (p.across width a).character < (p.across width gs).character →
      ¬ (p.across width gs).character <
        (p.across width a).character + width c := by
    intro a c b hSplit hLine hBefore hAfter
    have hFront : (p.across width a).Before (p.across width gs) :=
      .inr ⟨hLine, hBefore⟩
    have hBehind : (p.across width gs).Before
        (p.across width (a ++ [.char c])) := by
      rw [Position.across_append]
      exact .inr ⟨hLine.symm, hAfter⟩
    rw [hSame] at hSplit
    rcases cut_trichotomy hSplit with rfl | ⟨g, rest, rfl⟩ |
      ⟨g, rest, rfl⟩
    · exact Position.Before.irrefl _ hFront
    · have hLonger := Position.before_longer hWidth p gs g rest
      exact Position.Before.irrefl _ (hFront.trans hLonger)
    · rw [List.append_assoc, List.append_cancel_left_eq,
        List.cons_append, List.cons.injEq] at hSplit
      rcases hSplit with ⟨rfl, -⟩
      have hLonger := Position.before_append hWidth hBehind rest
      rw [List.append_assoc] at hLonger
      exact Position.Before.irrefl _ hLonger
  rcases hStops.last hWidth hNot with ⟨hLe, hLast⟩
  rcases hLast gs hs hSame rfl (Nat.le_refl _) with ⟨rest, rfl⟩
  cases rest with
  | nil => exact List.append_nil gs
  | cons g rest =>
      have hLonger := Position.before_longer hWidth p gs g rest
      have hLine := hStops.line
      unfold Position.Before at hLonger
      omega

end

end Text

end Borzoi
