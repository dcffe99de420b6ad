import Borzoi.Text.Lines

/-
  Coloured spans of a text.

  A pen goes over the glyphs of a text, each under a colour or none,
  and leaves spans that lie on one line each.  A span is put down at a
  break and wherever the pen is lifted.
-/

namespace Borzoi

namespace Text

variable {κ : Type}

/- Columns of one line, in one colour. -/
structure Span (κ : Type) where
  line : Nat
  start : Nat
  length : Nat
  colour : κ
deriving DecidableEq

/- On a later line, or behind on the same line. -/
def Span.Ahead
    (s t : Span κ) :
    Prop :=
  s.line < t.line ∨
    s.line = t.line ∧ s.start + s.length ≤ t.start

def Span.Covers
    (s : Span κ)
    (line column : Nat) :
    Prop :=
  s.line = line ∧ s.start ≤ column ∧ column < s.start + s.length

/- Where the pen set down, how far it went since, and the spans. -/
structure Pen (κ : Type) where
  start : Position
  length : Nat
  spans : List (Span κ)

namespace Pen

def span
    (pen : Pen κ)
    (k : κ) :
    Span κ :=
  ⟨pen.start.line, pen.start.character, pen.length, k⟩

def put
    (colour : Option κ)
    (pen : Pen κ) :
    List (Span κ) :=
  match colour with
  | some k =>
      if 0 < pen.length then
        pen.spans ++ [pen.span k]
      else
        pen.spans
  | none => pen.spans

def lift
    (colour : Option κ)
    (pen : Pen κ) :
    Pen κ :=
  ⟨⟨pen.start.line, pen.start.character + pen.length⟩, 0,
    pen.put colour⟩

variable (width : Char → Nat)

def draw
    (colour : Option κ)
    (pen : Pen κ) :
    Glyph → Pen κ
  | .char c => { pen with length := pen.length + width c }
  | _ => ⟨⟨pen.start.line + 1, 0⟩, 0, pen.put colour⟩

/- Over a run of glyphs, and up. -/
def stroke
    (colour : Option κ)
    (pen : Pen κ)
    (gs : List Glyph) :
    Pen κ :=
  (gs.foldl (draw width colour) pen).lift colour

end Pen

/- A glyph and the colour it is under. -/
abbrev Inked (κ : Type) :=
  Glyph × Option κ

variable (width : Char → Nat)

def Position.reach
    (ps : List (Inked κ)) :
    Position :=
  (⟨0, 0⟩ : Position).across width (ps.map Prod.fst)

def inked
    (colour : Option κ)
    (cs : List Char) :
    List (Inked κ) :=
  cs.map fun c => (.char c, colour)

def widthOf
    (cs : List Char) :
    Nat :=
  (cs.map width).sum

/- The span is a run of characters under its colour. -/
def Span.Of
    (ps : List (Inked κ))
    (s : Span κ) :
    Prop :=
  ∃ front cs back,
    ps = front ++ (inked (some s.colour) cs ++ back) ∧
      Position.reach width front = ⟨s.line, s.start⟩ ∧
      widthOf width cs = s.length

/- The columns of the characters under a colour. -/
def Painted
    (ps : List (Inked κ))
    (line column : Nat)
    (k : κ) :
    Prop :=
  ∃ front c back,
    ps = front ++ (.char c, some k) :: back ∧
      (Position.reach width front).line = line ∧
      (Position.reach width front).character ≤ column ∧
      column < (Position.reach width front).character + width c

/- What holds of the pen over these glyphs, under a colour. -/
structure Drawn
    (colour : Option κ)
    (ps : List (Inked κ))
    (pen : Pen κ) :
    Prop where
  pending : ∃ front cs,
    ps = front ++ inked colour cs ∧
      Position.reach width front = pen.start ∧
      widthOf width cs = pen.length
  of : ∀ s ∈ pen.spans, s.Of width ps ∧ 0 < s.length
  ordered : pen.spans.Pairwise Span.Ahead
  behind : ∀ s ∈ pen.spans,
    s.line < pen.start.line ∨
      s.line = pen.start.line ∧
        s.start + s.length ≤ pen.start.character
  covered : ∀ line column k,
    Painted width ps line column k →
    (∃ s ∈ pen.spans, s.colour = k ∧ s.Covers line column) ∨
      colour = some k ∧ (pen.span k).Covers line column

variable {width}
variable {colour : Option κ} {ps : List (Inked κ)} {pen : Pen κ}

theorem reach_snoc
    (p : Inked κ) :
    Position.reach width (ps ++ [p]) =
      (Position.reach width ps).past width p.1 := by
  rw [Position.reach, List.map_append, Position.across_append]
  rfl

theorem widthOf_snoc
    (cs : List Char)
    (c : Char) :
    widthOf width (cs ++ [c]) = widthOf width cs + width c := by
  simp [widthOf]

theorem inked_snoc
    (cs : List Char)
    (c : Char) :
    inked colour (cs ++ [c]) =
      inked colour cs ++ [(.char c, colour)] := by
  simp [inked]

theorem across_inked
    (p : Position)
    (cs : List Char) :
    p.across width ((inked colour cs).map Prod.fst) =
      ⟨p.line, p.character + widthOf width cs⟩ := by
  induction cs generalizing p with
  | nil => rfl
  | cons c cs ih =>
      have hSum : widthOf width (c :: cs) =
          width c + widthOf width cs := by
        simp [widthOf]
      have hStep := ih (p.past width (.char c))
      rw [hSum, ← Nat.add_assoc]
      exact hStep

/- Where the pen stands is where the text has got to. -/
theorem Drawn.reach
    (hDrawn : Drawn width colour ps pen) :
    Position.reach width ps =
      ⟨pen.start.line, pen.start.character + pen.length⟩ := by
  rcases hDrawn.pending with ⟨front, cs, rfl, hFront, hLength⟩
  rw [Position.reach, List.map_append, Position.across_append,
    across_inked, hLength]
  have hStart : (⟨0, 0⟩ : Position).across width (front.map Prod.fst) =
      pen.start :=
    hFront
  rw [hStart]

theorem Drawn.start :
    Drawn width colour [] ⟨⟨0, 0⟩, 0, []⟩ where
  pending := ⟨[], [], rfl, rfl, rfl⟩
  of := by
    intro s hs
    cases hs
  ordered := List.Pairwise.nil
  behind := by
    intro s hs
    cases hs
  covered := by
    rintro line column k ⟨front, c, back, hNil, -⟩
    cases front <;> cases hNil

theorem Span.Of.append
    {s : Span κ}
    (hOf : s.Of width ps)
    (more : List (Inked κ)) :
    s.Of width (ps ++ more) := by
  rcases hOf with ⟨front, cs, back, rfl, hStart, hLength⟩
  refine ⟨front, cs, back ++ more, ?_, hStart, hLength⟩
  simp only [List.append_assoc]

variable {column line : Nat}

/- The last glyph adds its own columns. -/
theorem painted_snoc
    {p : Inked κ}
    {k : κ}
    (hPainted : Painted width (ps ++ [p]) line column k) :
    Painted width ps line column k ∨
      ∃ c,
        p = (.char c, some k) ∧
          (Position.reach width ps).line = line ∧
          (Position.reach width ps).character ≤ column ∧
          column < (Position.reach width ps).character + width c := by
  rcases hPainted with ⟨front, c, back, hSplit, hAt⟩
  rcases List.eq_nil_or_concat back with rfl | ⟨init, last, rfl⟩
  · rcases List.append_inj' hSplit rfl with ⟨rfl, hLast⟩
    cases hLast
    exact .inr ⟨c, rfl, hAt⟩
  · rw [List.concat_eq_append, ← List.cons_append,
      ← List.append_assoc] at hSplit
    rcases List.append_inj' hSplit rfl with ⟨rfl, -⟩
    exact .inl ⟨front, c, init, rfl, hAt⟩

section

variable (hDrawn : Drawn width colour ps pen)

include hDrawn

/- A character stretches the pen. -/
theorem Drawn.char
    (c : Char) :
    Drawn width colour (ps ++ [(.char c, colour)])
      (pen.draw width colour (.char c)) := by
  have hReach := hDrawn.reach
  refine ⟨?_, ?_, hDrawn.ordered, hDrawn.behind, ?_⟩
  · rcases hDrawn.pending with ⟨front, cs, rfl, hFront, hLength⟩
    refine ⟨front, cs ++ [c], ?_, hFront, ?_⟩
    · rw [inked_snoc, List.append_assoc]
    · rw [widthOf_snoc, hLength]
      rfl
  · intro s hs
    rcases hDrawn.of s hs with ⟨hOf, hPos⟩
    exact ⟨hOf.append _, hPos⟩
  · intro line column k hPainted
    rcases painted_snoc hPainted with hOld | ⟨d, hNew, hLine, hLow, hHigh⟩
    · rcases hDrawn.covered line column k hOld with
        hSpan | ⟨hColour, hLine, hLow, hHigh⟩
      · exact .inl hSpan
      · refine .inr ⟨hColour, hLine, hLow, ?_⟩
        exact Nat.lt_of_lt_of_le hHigh (by
          simp only [Pen.span, Pen.draw]
          omega)
    · cases hNew
      rw [hReach] at hLine hLow hHigh
      refine .inr ⟨rfl, hLine, ?_, ?_⟩
      · exact Nat.le_trans (Nat.le_add_right _ _) hLow
      · simp only [Pen.span, Pen.draw]
        simp only at hHigh
        omega

/- The spans once the pen puts its own down. -/
theorem Drawn.put :
    (∀ s ∈ pen.put colour, s.Of width ps ∧ 0 < s.length) ∧
      (pen.put colour).Pairwise Span.Ahead ∧
      (∀ s ∈ pen.put colour,
        s.line < pen.start.line ∨
          s.line = pen.start.line ∧
            s.start + s.length ≤ pen.start.character + pen.length) ∧
      ∀ line column k,
        Painted width ps line column k →
        ∃ s ∈ pen.put colour, s.colour = k ∧ s.Covers line column := by
  have hOldBehind : ∀ s ∈ pen.spans,
      s.line < pen.start.line ∨
        s.line = pen.start.line ∧
          s.start + s.length ≤ pen.start.character + pen.length := by
    intro s hs
    rcases hDrawn.behind s hs with hLt | ⟨hEq, hLe⟩
    · exact .inl hLt
    · exact .inr ⟨hEq, Nat.le_trans hLe (Nat.le_add_right _ _)⟩
  cases colour with
  | none =>
      refine ⟨hDrawn.of, hDrawn.ordered, hOldBehind, ?_⟩
      intro line column k hPainted
      rcases hDrawn.covered line column k hPainted with
        hSpan | ⟨hColour, -⟩
      · exact hSpan
      · cases hColour
  | some k =>
      by_cases hPos : 0 < pen.length
      · have hPut : pen.put (some k) = pen.spans ++ [pen.span k] :=
          if_pos hPos
        rw [hPut]
        refine ⟨?_, ?_, ?_, ?_⟩
        · intro s hs
          rcases List.mem_append.1 hs with hOld | hNew
          · exact hDrawn.of s hOld
          · cases List.mem_singleton.1 hNew
            rcases hDrawn.pending with ⟨front, cs, rfl, hFront, hLength⟩
            refine ⟨⟨front, cs, [], ?_, hFront, hLength⟩, hPos⟩
            rw [List.append_nil]
            rfl
        · refine List.pairwise_append.2
            ⟨hDrawn.ordered, List.pairwise_singleton _ _, ?_⟩
          intro s hs t ht
          cases List.mem_singleton.1 ht
          exact hDrawn.behind s hs
        · intro s hs
          rcases List.mem_append.1 hs with hOld | hNew
          · exact hOldBehind s hOld
          · cases List.mem_singleton.1 hNew
            exact .inr ⟨rfl, Nat.le_refl _⟩
        · intro line column k' hPainted
          rcases hDrawn.covered line column k' hPainted with
            ⟨s, hs, hAt⟩ | ⟨hColour, hCovers⟩
          · exact ⟨s, List.mem_append_left _ hs, hAt⟩
          · cases hColour
            exact ⟨_, List.mem_append_right _ List.mem_cons_self, rfl,
              hCovers⟩
      · have hPut : pen.put (some k) = pen.spans := if_neg hPos
        rw [hPut]
        refine ⟨hDrawn.of, hDrawn.ordered, hOldBehind, ?_⟩
        intro line column k' hPainted
        rcases hDrawn.covered line column k' hPainted with
          hSpan | ⟨-, -, hLow, hHigh⟩
        · exact hSpan
        · simp only [Pen.span] at hLow hHigh
          omega

/- The pen is up, so any colour may follow. -/
theorem Drawn.lift
    (next : Option κ) :
    Drawn width next ps (pen.lift colour) := by
  rcases hDrawn.put with ⟨hOf, hOrdered, hBehind, hCovered⟩
  refine ⟨⟨ps, [], ?_, hDrawn.reach, rfl⟩, hOf, hOrdered, hBehind, ?_⟩
  · exact (List.append_nil ps).symm
  · intro line column k hPainted
    exact .inl (hCovered line column k hPainted)

theorem Drawn.break
    {g : Glyph}
    (hBreak : ∀ c, g ≠ .char c) :
    Drawn width colour (ps ++ [(g, colour)])
      (pen.draw width colour g) := by
  rcases hDrawn.put with ⟨hOf, hOrdered, hBehind, hCovered⟩
  have hDraw : pen.draw width colour g =
      ⟨⟨pen.start.line + 1, 0⟩, 0, pen.put colour⟩ := by
    cases g with
    | char c => exact absurd rfl (hBreak c)
    | crlf => rfl
    | cr => rfl
    | lf => rfl
  have hPast : (Position.reach width ps).past width g =
      ⟨pen.start.line + 1, 0⟩ := by
    rw [hDrawn.reach]
    cases g with
    | char c => exact absurd rfl (hBreak c)
    | crlf => rfl
    | cr => rfl
    | lf => rfl
  rw [hDraw]
  refine ⟨⟨ps ++ [(g, colour)], [], ?_, ?_, rfl⟩, ?_, hOrdered, ?_, ?_⟩
  · exact (List.append_nil _).symm
  · rw [reach_snoc]
    exact hPast
  · intro s hs
    rcases hOf s hs with ⟨hOld, hPos⟩
    exact ⟨hOld.append _, hPos⟩
  · intro s hs
    rcases hBehind s hs with hLt | ⟨hEq, -⟩
    · exact .inl (Nat.lt_succ_of_lt hLt)
    · exact .inl (Nat.lt_succ_of_le (Nat.le_of_eq hEq))
  · intro line column k hPainted
    rcases painted_snoc hPainted with hOld | ⟨c, hNew, -⟩
    · exact .inl (hCovered line column k hOld)
    · cases hNew
      exact absurd rfl (hBreak c)

theorem Drawn.draw
    (g : Glyph) :
    Drawn width colour (ps ++ [(g, colour)])
      (pen.draw width colour g) := by
  cases g with
  | char c => exact hDrawn.char c
  | crlf => exact hDrawn.break (by simp)
  | cr => exact hDrawn.break (by simp)
  | lf => exact hDrawn.break (by simp)

/- A stroke draws its glyphs under its colour. -/
theorem Drawn.stroke
    (gs : List Glyph)
    (next : Option κ) :
    Drawn width next (ps ++ gs.map fun g => (g, colour))
      (pen.stroke width colour gs) := by
  induction gs generalizing ps pen with
  | nil =>
      rw [List.map_nil, List.append_nil]
      exact hDrawn.lift next
  | cons g gs ih =>
      have hStep := ih (hDrawn.draw g)
      rw [List.append_assoc] at hStep
      exact hStep

end

/- The character that holds a column of a run. -/
theorem widthOf_holds
    {cs : List Char}
    {n : Nat}
    (hLt : n < widthOf width cs) :
    ∃ init c rest,
      cs = init ++ c :: rest ∧ widthOf width init ≤ n ∧
        n < widthOf width init + width c := by
  induction cs generalizing n with
  | nil => exact absurd hLt (Nat.not_lt_zero n)
  | cons c cs ih =>
      have hSum : ∀ l, widthOf width (c :: l) =
          width c + widthOf width l := by
        intro l
        simp [widthOf]
      by_cases hHere : n < width c
      · refine ⟨[], c, cs, rfl, Nat.zero_le n, ?_⟩
        rw [show widthOf width [] = 0 from rfl, Nat.zero_add]
        exact hHere
      · have hRest : n - width c < widthOf width cs := by
          rw [hSum] at hLt
          omega
        rcases ih hRest with ⟨init, d, rest, rfl, hLow, hHigh⟩
        refine ⟨c :: init, d, rest, rfl, ?_, ?_⟩
        · rw [hSum]
          omega
        · rw [hSum]
          omega

/- Every column of a span belongs to one of its characters. -/
theorem Span.Of.painted
    {s : Span κ}
    (hOf : s.Of width ps)
    (hCovers : s.Covers line column) :
    Painted width ps line column s.colour := by
  rcases hOf with ⟨front, cs, back, rfl, hStart, hLength⟩
  rcases hCovers with ⟨rfl, hLow, hHigh⟩
  have hIn : column - s.start < widthOf width cs := by omega
  rcases widthOf_holds hIn with ⟨init, c, rest, rfl, hFrom, hTo⟩
  have hReach : Position.reach width
      (front ++ inked (some s.colour) init) =
      ⟨s.line, s.start + widthOf width init⟩ := by
    rw [Position.reach, List.map_append, Position.across_append,
      across_inked]
    have hFront : (⟨0, 0⟩ : Position).across width
        (front.map Prod.fst) = ⟨s.line, s.start⟩ :=
      hStart
    rw [hFront]
  refine ⟨front ++ inked (some s.colour) init, c,
    inked (some s.colour) rest ++ back, ?_, ?_, ?_, ?_⟩
  · simp [inked]
  · rw [hReach]
  · rw [hReach]
    show s.start + widthOf width init ≤ column
    omega
  · rw [hReach]
    show column < s.start + widthOf width init + width c
    omega

/- A pen that is up has drawn every coloured character and nothing
   else. -/
theorem Drawn.exact
    (hDrawn : Drawn width none ps pen)
    (line column : Nat)
    (k : κ) :
    (∃ s ∈ pen.spans, s.colour = k ∧ s.Covers line column) ↔
      Painted width ps line column k := by
  constructor
  · rintro ⟨s, hs, rfl, hCovers⟩
    exact (hDrawn.of s hs).1.painted hCovers
  · intro hPainted
    rcases hDrawn.covered line column k hPainted with
      hSpan | ⟨hNone, -⟩
    · exact hSpan
    · cases hNone

end Text

end Borzoi
