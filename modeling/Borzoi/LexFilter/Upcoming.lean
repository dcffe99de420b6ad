import Borzoi.LexFilter.Abstract
import Borzoi.LexFilter.Positions
import Borzoi.Text.Utf8

/-
  The tokens a raw stream will still yield.

  `upcoming` runs the cursor over the rest of the stream.  A stream
  lexed from the source never fails on the way, and the tokens it
  yields stand at character boundaries.
-/

namespace Borzoi

namespace LexFilter

open Lexer

/- Every line starts at a character. -/
def linesStartChars
    (source : List UInt8) :
    Bool :=
  isCharBoundary source (initialLineStart source) &&
    (List.range source.length).all fun i =>
      source[i]? != some newlineByte || isCharBoundary source (i + 1)

/- Bytes of a token the filter may cut: ASCII, on one line. -/
def isWordByte
    (b : UInt8) :
    Bool :=
  b < 0x80 && b != newlineByte

/- A token the filter may cut covers its text. -/
def covers
    (source : List UInt8)
    (item : RawItem) :
    Bool :=
  match item.result with
  | .error _ => true
  | .ok token =>
      match cutLength token with
      | none => true
      | some n =>
          item.span.stop == item.span.start + n &&
            ((source.drop item.span.start).take n).all isWordByte

/- An integer in front of a range ends in two dots. -/
def hasDots
    (item : RawItem) :
    Bool :=
  match item.result with
  | .ok (.IntDotDot text) => 2 ≤ text.length
  | _ => true

/- The items follow each other from byte `pos` on. -/
def fits
    (source : List UInt8)
    (pos : Nat)
    (raw : List RawItem) :
    Bool :=
  match raw with
  | [] => pos ≤ source.length && isCharBoundary source pos
  | item :: rest =>
      pos ≤ item.span.start && item.span.start ≤ item.span.stop &&
        isCharBoundary source pos &&
        isCharBoundary source item.span.start &&
        covers source item && hasDots item &&
        fits source item.span.stop rest

/- A token stream lexed from a text. -/
structure WellLexed
    (source : List UInt8)
    (raw : List RawItem) :
    Prop where
  utf8 : ∃ text : List Char, source = Text.utf8 text
  items : fits source 0 raw = true

variable {s s' : Core} {raw : List RawItem} {source : List UInt8} {target : Nat}
variable {e : Panic} {start stop : Pos} {span : Span}

/- Where a character starts there is a boundary. -/
theorem isCharBoundary_of_lead
    {i : Nat}
    (hLength : i ≤ source.length)
    (hLead : ∀ b, source[i]? = some b → b.IsUTF8FirstByte) :
    isCharBoundary source i = true := by
  unfold isCharBoundary
  rw [Bool.or_eq_true]
  refine .inr ?_
  cases hByte : source[i]? with
  | none =>
      have hEnd := List.getElem?_eq_none_iff.1 hByte
      exact beq_iff_eq.2 (Nat.le_antisymm hLength hEnd)
  | some b =>
      have hNot := Text.firstByte_not_continuation b (hLead b hByte)
      dsimp only
      rw [Bool.not_eq_true', Bool.eq_false_iff]
      intro hContinues
      simp only [isContinuationByte, Bool.and_eq_true,
        decide_eq_true_eq] at hContinues
      exact hNot hContinues

/- The lines of a text start at characters. -/
theorem linesStartChars_utf8
    (text : List Char) :
    linesStartChars (Text.utf8 text) = true := by
  simp only [linesStartChars, Bool.and_eq_true, List.all_eq_true,
    List.mem_range, Bool.or_eq_true, bne_iff_ne]
  constructor
  · unfold initialLineStart
    split
    · next hMark =>
        rcases List.isPrefixOf_iff_prefix.1 hMark with ⟨rest, hRest⟩
        refine isCharBoundary_of_lead ?_ ?_
        · rw [← hRest, List.length_append]
          exact Nat.le_add_right _ _
        · intro b hNext
          refine Text.utf8_after_mark ?_ ?_ ?_ hNext <;>
            rw [← hRest] <;> rfl
    · exact isCharBoundary_of_lead (Nat.zero_le _)
        fun b => Text.utf8_lead
  · intro i hIn
    by_cases hByte : (Text.utf8 text)[i]? = some newlineByte
    · refine .inr (isCharBoundary_of_lead hIn ?_)
      intro b hNext
      exact Text.utf8_after_ascii hByte (by decide) hNext
    · exact .inl hByte

theorem WellLexed.lexed
    (hLexed : WellLexed source raw) :
    linesStartChars source = true ∧ fits source 0 raw = true := by
  rcases hLexed.utf8 with ⟨text, hText⟩
  refine ⟨?_, hLexed.items⟩
  rw [hText]
  exact linesStartChars_utf8 text

theorem isCharBoundary_of_lineStart
    {line b : Nat}
    (hLines : linesStartChars source = true)
    (hStart : LineStart source line b) :
    isCharBoundary source b = true := by
  simp only [linesStartChars, Bool.and_eq_true, List.all_eq_true,
    List.mem_range, Bool.or_eq_true, bne_iff_ne] at hLines
  rcases hStart with ⟨-, rfl⟩ | ⟨hPos, hByte, -⟩
  · exact hLines.1
  · have hIn := (List.getElem?_eq_some_iff.1 hByte).1
    have hNext := (hLines.2 (b - 1) hIn).resolve_left
      (fun hNe => hNe hByte)
    have hEq : b - 1 + 1 = b := by omega
    rwa [hEq] at hNext

theorem isCharBoundary_of_fits
    {pos : Nat}
    (hFits : fits source pos raw = true) :
    isCharBoundary source pos = true := by
  cases raw with
  | nil =>
      simp only [fits, Bool.and_eq_true] at hFits
      exact hFits.2
  | cons item rest =>
      rw [fits] at hFits
      simp only [Bool.and_eq_true] at hFits
      rcases hFits with ⟨⟨⟨⟨⟨-, hLast⟩, -⟩, -⟩, -⟩, -⟩
      exact hLast

/- A failed slice is the only way the cursor can fail. -/
theorem Core.advanceCursorTo_error
    (hFail : s.advanceCursorTo target = .error e) :
    e = .SourceSlice ∧
      ¬ (s.lastByte ≤ target ∧
        isCharBoundary s.source s.lastByte = true ∧
        isCharBoundary s.source target = true) := by
  unfold Core.advanceCursorTo sliceSource at hFail
  split at hFail
  · next hSlice =>
      split at hSlice
      · cases hSlice
      · next hBounds =>
          cases hSlice
          cases hFail
          exact ⟨rfl, hBounds⟩
  · cases hFail

namespace Core

/- The cursor alone, without the rest of the state. -/
def bare
    (s : Core) :
    Core :=
  { s with
    raw := []
    delayed := []
    offsideStack := []
    undentationSkip := []
    initialized := false
    parenDepth := 0
    lastRealEnd := 0
    lastRealWasAtomicEnd := false
    tokensThatNeedNoProcessing := 0
    shapeDependsOnLanguageVersion := false
    pushes := none }

/-
  The tokens the items `raw` will yield.  Where the cursor fails, the
  end of file stands for what cannot be reached.
-/
def upcomingFrom
    (s : Core)
    (raw : List RawItem) :
    List TokenTup :=
  match raw with
  | [] =>
      if s.eofPulled then
        []
      else
        match s.advanceCursorTo s.source.length with
        | .error _ => [s.eofTup ⟨0, 0⟩]
        | .ok (pos, _) => [s.eofTup pos]
  | item :: rest =>
      match s.advanceAcross item.span with
      | .error _ => [s.eofTup ⟨0, 0⟩]
      | .ok (start, stop, s₁) =>
          match contentOf item with
          | none => s₁.upcomingFrom rest
          | some content =>
              ⟨content, item.span, start, stop⟩ :: s₁.upcomingFrom rest

/- The tokens the filter will still pull.  The cursor decides them. -/
def upcoming
    (s : Core) :
    List TokenTup :=
  s.bare.upcomingFrom s.raw

theorem advanceCursorTo_bare
    {pos : Pos}
    (hStep : s.advanceCursorTo target = .ok (pos, s')) :
    s.bare.advanceCursorTo target = .ok (pos, s'.bare) := by
  have hSource : s.bare.source = s.source := rfl
  have hLast : s.bare.lastByte = s.lastByte := rfl
  unfold advanceCursorTo at *
  rw [hSource, hLast]
  split at hStep
  · cases hStep
  · simp only [Except.ok.injEq, Prod.mk.injEq] at hStep
    rcases hStep with ⟨rfl, rfl⟩
    dsimp only
    split <;> rfl

theorem advanceAcross_bare
    (hStep : s.advanceAcross span = .ok (start, stop, s')) :
    s.bare.advanceAcross span = .ok (start, stop, s'.bare) := by
  unfold advanceAcross at *
  split at hStep
  · cases hStep
  · next start' s₁ hFirst =>
      split at hStep
      · cases hStep
      · next stop' s₂ hSecond =>
          simp only [Except.ok.injEq, Prod.mk.injEq] at hStep
          rcases hStep with ⟨rfl, rfl, rfl⟩
          simp only [advanceCursorTo_bare hFirst,
            advanceCursorTo_bare hSecond]

end Core

/- What crossing a span yields. -/
structure Crossed
    (s : Core)
    (span : Span)
    (start stop : Pos)
    (mid s' : Core) :
    Prop where
  first : Advanced s span.start start mid
  second : Advanced mid span.stop stop s'

theorem Core.advanceAcross_crossed
    (hTracked : Tracked s)
    (hStep : s.advanceAcross span = .ok (start, stop, s')) :
    ∃ mid, Crossed s span start stop mid s' := by
  unfold advanceAcross at hStep
  split at hStep
  · cases hStep
  · next s₁ hFirst =>
      have hMid := advanceCursorTo_tracked hTracked hFirst
      split at hStep
      · cases hStep
      · next s₂ hSecond =>
          simp only [Except.ok.injEq, Prod.mk.injEq] at hStep
          rcases hStep with ⟨rfl, rfl, rfl⟩
          exact ⟨s₁, hMid, advanceCursorTo_tracked hMid.tracked hSecond⟩

/- A failed slice is the only way to fail across a span. -/
theorem Core.advanceAcross_error
    (hTracked : Tracked s)
    (hFail : s.advanceAcross span = .error e) :
    e = .SourceSlice ∧
      ¬ (s.lastByte ≤ span.start ∧ span.start ≤ span.stop ∧
        isCharBoundary s.source s.lastByte = true ∧
        isCharBoundary s.source span.start = true ∧
        isCharBoundary s.source span.stop = true) := by
  unfold advanceAcross at hFail
  split at hFail
  · next hFirst =>
      cases hFail
      rcases advanceCursorTo_error hFirst with ⟨rfl, hBounds⟩
      refine ⟨rfl, ?_⟩
      rintro ⟨hOrder, -, hLast, hStart, -⟩
      exact hBounds ⟨hOrder, hLast, hStart⟩
  · next s₁ hFirst =>
      have hMid := advanceCursorTo_tracked hTracked hFirst
      have hSource : s₁.source = s.source := by
        rw [hMid.moved]
        rfl
      split at hFail
      · next hSecond =>
          cases hFail
          rcases advanceCursorTo_error hSecond with ⟨rfl, hBounds⟩
          refine ⟨rfl, ?_⟩
          rintro ⟨-, hOrder, -, hStart, hStop⟩
          rw [hSource, hMid.lastByte] at hBounds
          exact hBounds ⟨hOrder, hStart, hStop⟩
      · cases hFail

------------------------------------------------------------
-- Sound Tokens
------------------------------------------------------------

section Sound

variable {s mid s' : Core} {item : RawItem} {start stop : Pos}

/- Only a byte order mark starts the cursor's line behind it. -/
theorem Tracked.start_le
    (hTracked : Tracked s)
    {b : UInt8}
    (hByte : s.source[s.lastByte]? = some b)
    (hAscii : b < 0x80) :
    s.curLineStartByte ≤ s.lastByte := by
  rcases hTracked.start with ⟨-, hStart⟩ | ⟨hPos, hBreak, hLine⟩
  · by_contra hGt
    rw [hStart] at hGt
    unfold initialLineStart at hGt
    split at hGt
    · next hMark =>
        have hPrefix := List.isPrefixOf_iff_prefix.1 hMark
        have hIn : s.lastByte < byteOrderMark.length := by omega
        have hMarkByte : byteOrderMark[s.lastByte]? = some b := by
          rcases hPrefix with ⟨rest, hEq⟩
          rw [← hEq, List.getElem?_append_left hIn] at hByte
          exact hByte
        have hHigh : ∀ c ∈ byteOrderMark, ¬ c < 0x80 := by
          decide +kernel
        exact hHigh b (List.mem_of_getElem? hMarkByte) hAscii
    · omega
  · by_contra hGt
    have hLess := lineStart_lt ⟨hPos, hBreak⟩ (Nat.lt_of_not_le hGt)
    have hCursor := hTracked.line
    omega

/- A token the filter may cut stays on its line. -/
theorem Crossed.sameLine
    {n : Nat}
    (hCross : Crossed s item.span start stop mid s')
    (hStop : item.span.stop = item.span.start + n)
    (hWord : ((s.source.drop item.span.start).take n).all
      isWordByte = true) :
    s'.curLine = mid.curLine ∧
      s'.curLineStartByte = mid.curLineStartByte := by
  have hMidSource : mid.source = s.source := by
    rw [hCross.first.moved]
    rfl
  have hSource : s'.source = mid.source := by
    rw [hCross.second.moved]
    rfl
  have hNone : ((s.source.drop item.span.start).take n).count
      newlineByte = 0 := by
    rw [List.count_eq_zero]
    intro hMem
    have hBreak := List.all_eq_true.1 hWord _ hMem
    revert hBreak
    decide
  have hBreaks : breaks s.source item.span.stop =
      breaks s.source item.span.start := by
    unfold breaks
    rw [hStop, List.take_add, List.count_append, hNone, Nat.add_zero]
  have hLine : s'.curLine = mid.curLine := by
    rw [hCross.second.tracked.line, hCross.first.tracked.line, hSource,
      hMidSource, hCross.second.lastByte, hCross.first.lastByte,
      hBreaks]
  refine ⟨hLine, ?_⟩
  have hStart := hCross.second.tracked.start
  rw [hLine, hSource] at hStart
  exact hStart.unique hCross.first.tracked.start

/- A byte of a word is a boundary. -/
theorem isCharBoundary_of_word
    {a n i : Nat}
    (hWord : ((source.drop a).take n).all isWordByte = true)
    (hLength : a + n ≤ source.length)
    (hi : i < n) :
    ∃ b, source[a + i]? = some b ∧ b < 0x80 ∧
      isCharBoundary source (a + i) = true := by
  have hIn : a + i < source.length := by omega
  have hByte : source[a + i]? = some source[a + i] :=
    List.getElem?_eq_getElem hIn
  have hMem : source[a + i] ∈ (source.drop a).take n := by
    refine List.mem_of_getElem? (i := i) ?_
    rw [List.getElem?_take, if_pos hi, List.getElem?_drop, hByte]
  have hSmall := List.all_eq_true.1 hWord _ hMem
  simp only [isWordByte, Bool.and_eq_true, decide_eq_true_eq] at hSmall
  refine ⟨_, hByte, hSmall.1, ?_⟩
  unfold isCharBoundary
  rw [hByte]
  have hLow : ¬ 0x80 ≤ source[a + i] := UInt8.not_le.2 hSmall.1
  simp [isContinuationByte, hLow]

/- The pieces of a token the filter may cut are boundaries. -/
theorem Crossed.cut
    {n : Nat}
    (hCross : Crossed s item.span start stop mid s')
    (hLines : linesStartChars s.source = true)
    (hStop : item.span.stop = item.span.start + n)
    (hWord : ((s.source.drop item.span.start).take n).all
      isWordByte = true) :
    stop = ⟨start.line, start.col + n⟩ ∧
      ∀ i ≤ n, Bounded s.source ⟨start.line, start.col + i⟩ := by
  have hMidSource : mid.source = s.source := by
    rw [hCross.first.moved]
    rfl
  have hEnd : isCharBoundary s.source (item.span.start + n) = true := by
    rw [← hStop, ← hMidSource]
    exact hCross.second.boundary
  have hLength := isCharBoundary_le hEnd
  rcases hCross.sameLine hStop hWord with ⟨hLine, hStart⟩
  have hLineStart := hCross.first.tracked.start
  rw [hMidSource] at hLineStart
  have hFirst := hCross.first.place
  have hSecond := hCross.second.place
  rw [hLine, hStart] at hSecond
  rcases Nat.eq_zero_or_pos n with rfl | hPos
  · rw [Nat.add_zero] at hStop hEnd
    refine ⟨?_, ?_⟩
    · rw [hSecond, hFirst, hStop]
      rfl
    · intro i hi
      rw [Nat.le_zero.1 hi]
      exact hCross.first.bounded
        fun _ _ => isCharBoundary_of_lineStart hLines
  · have hLe : mid.curLineStartByte ≤ item.span.start := by
      rcases isCharBoundary_of_word hWord hLength hPos with
        ⟨b, hByte, hAscii, -⟩
      rw [Nat.add_zero, ← hMidSource, ← hCross.first.lastByte] at hByte
      rw [← hCross.first.lastByte]
      exact hCross.first.tracked.start_le hByte hAscii
    refine ⟨?_, ?_⟩
    · rw [hSecond, hFirst, hStop]
      dsimp only
      rw [Nat.sub_add_comm hLe]
    · intro i hi
      rw [hFirst]
      refine ⟨_, hLineStart, ?_⟩
      dsimp only
      have hEq : mid.curLineStartByte +
          (item.span.start - mid.curLineStartByte + i) =
            item.span.start + i := by omega
      rw [hEq]
      refine ⟨?_, ?_⟩
      · rcases Nat.lt_or_eq_of_le hi with hLt | rfl
        · rcases isCharBoundary_of_word hWord hLength hLt with
            ⟨-, -, -, hBoundary⟩
          exact hBoundary
        · exact hEnd
      · -- between the two ends, which are on one line
        have hFrom := hCross.first.tracked.line
        have hTo := hCross.second.tracked.line
        have hSource : s'.source = mid.source := by
          rw [hCross.second.moved]
          rfl
        rw [hMidSource, hCross.first.lastByte] at hFrom
        rw [hLine, hSource, hMidSource, hCross.second.lastByte, hStop]
          at hTo
        have hLow : breaks s.source item.span.start ≤
            breaks s.source (item.span.start + i) :=
          breaks_mono (Nat.le_add_right _ _)
        have hHigh : breaks s.source (item.span.start + i) ≤
            breaks s.source (item.span.start + n) :=
          breaks_mono (Nat.add_le_add_left hi _)
        omega

/- A token lexed from the source is sound. -/
theorem Crossed.sound
    {content : TokenContent}
    (hCross : Crossed s item.span start stop mid s')
    (hLines : linesStartChars s.source = true)
    (hCovers : covers s.source item = true)
    (hDots : hasDots item = true)
    (hContent : Core.contentOf item = some content) :
    Sound (Bounded s.source) ⟨content, item.span, start, stop⟩ := by
  have hMidSource : mid.source = s.source := by
    rw [hCross.first.moved]
    rfl
  have hReal : ∀ token, content = .Real token →
      item.result = .ok token := by
    intro token hToken
    unfold Core.contentOf at hContent
    rw [hToken] at hContent
    split at hContent
    · next token' hResult =>
        split at hContent
        · cases hContent
        · cases hContent
          exact hResult
    · cases hContent
  refine ⟨?_, ?_, ?_, ?_⟩
  · exact hCross.first.bounded
      fun _ _ => isCharBoundary_of_lineStart hLines
  · rw [← hMidSource]
    refine hCross.second.bounded ?_
    rw [hMidSource]
    exact fun _ _ => isCharBoundary_of_lineStart hLines
  · intro token n hToken hCut
    simp only [covers, hReal token hToken, hCut, Bool.and_eq_true,
      beq_iff_eq] at hCovers
    rcases hCross.cut hLines hCovers.1 hCovers.2 with ⟨hStop, hBounds⟩
    exact ⟨hStop, hCovers.1, hBounds⟩
  · intro text hToken
    simpa [hasDots, hReal _ hToken] using hDots

end Sound

/- What a pull from the items `raw` yields. -/
structure Pulled
    (s : Core)
    (raw : List RawItem)
    (reply : Option TokenTup)
    (s' : Core) :
    Prop where
  tracked : Tracked s'
  moved : s.CursorMoved s'
  grows : ∀ entry ∈ s.lineStarts, entry ∈ s'.lineStarts
  knows : ∀ tt, reply = some tt →
    s'.Knows tt.start.line ∧ s'.Knows tt.stop.line
  upcoming : s.bare.upcomingFrom raw = reply.toList ++ s'.upcoming
  last : reply = none → s'.upcoming = []
  eof : s'.eofPulled = true → s'.raw = []

namespace Core

variable {s s' : Core} {reply : Option TokenTup}

theorem upcomingFrom_length
    (s : Core)
    (raw : List RawItem) :
    (s.upcomingFrom raw).length ≤ raw.length + 1 := by
  induction raw generalizing s with
  | nil =>
      rw [upcomingFrom]
      split
      · exact Nat.zero_le _
      · split <;> exact Nat.le_refl 1
  | cons item rest ih =>
      rw [upcomingFrom]
      split
      · exact Nat.le_add_left 1 _
      · next s₁ _ =>
          have hRest := ih s₁
          split
          · exact Nat.le_succ_of_le hRest
          · exact Nat.succ_le_succ hRest

/- There are no more tokens than items, and the end of file. -/
theorem upcoming_length
    (s : Core) :
    s.upcoming.length ≤ s.raw.length + 1 :=
  upcomingFrom_length s.bare s.raw

/- Pulling takes the first upcoming token. -/
theorem pullRawFrom_pulled
    (hTracked : Tracked s)
    (hEof : s.eofPulled = true → raw = [])
    (hPull : s.pullRawFrom raw = .ok (reply, s')) :
    Pulled s raw reply s' := by
  induction raw generalizing s with
  | nil =>
      have hMoved := pullRawFrom_frame hPull
      rw [pullRawFrom] at hPull
      split at hPull
      · next hPulled =>
          simp only [Except.ok.injEq, Prod.mk.injEq] at hPull
          rcases hPull with ⟨rfl, rfl⟩
          have hNone : s.bare.upcomingFrom [] = [] := if_pos hPulled
          refine ⟨?_, hMoved, fun _ => id, ?_, rfl, fun _ => hNone,
            fun _ => rfl⟩
          · exact ⟨hTracked.line, hTracked.start, hTracked.recorded,
              hTracked.entries, hTracked.ascending⟩
          · intro tt hSome
            cases hSome
      · next hOpen =>
          split at hPull
          · cases hPull
          · next pos s₁ hMove =>
              simp only [Except.ok.injEq, Prod.mk.injEq] at hPull
              rcases hPull with ⟨rfl, rfl⟩
              have hStep := advanceCursorTo_tracked hTracked hMove
              have hT := hStep.tracked
              refine ⟨?_, hMoved, hStep.grows, ?_, ?_, ?_,
                fun _ => rfl⟩
              · exact ⟨hT.line, hT.start, hT.recorded, hT.entries,
                  hT.ascending⟩
              · intro tt hSome
                cases hSome
                exact ⟨hStep.knows, hStep.knows⟩
              · have hBare : s.bare.advanceCursorTo s.bare.source.length =
                    .ok (pos, s₁.bare) := advanceCursorTo_bare hMove
                have hBareOpen : ¬ s.bare.eofPulled = true := hOpen
                rw [upcomingFrom, if_neg hBareOpen, hBare]
                rfl
              · intro hNone
                cases hNone
  | cons item rest ih =>
      have hOpen : ¬ s.eofPulled = true := by
        intro hPulled
        cases hEof hPulled
      rw [pullRawFrom] at hPull
      split at hPull
      · cases hPull
      · next start stop s₁ hMove =>
          rcases advanceAcross_crossed hTracked hMove with ⟨mid, hCross⟩
          have hFrame := advanceAcross_frame hMove
          have hBare := advanceAcross_bare hMove
          have hGrows : ∀ entry ∈ s.lineStarts, entry ∈ s₁.lineStarts :=
            fun entry hMem =>
              hCross.second.grows _ (hCross.first.grows _ hMem)
          have hStill : ¬ s₁.eofPulled = true := by
            rw [hCross.second.eofPulled, hCross.first.eofPulled]
            exact hOpen
          split at hPull
          · next hTrivia =>
              have hRest := ih hCross.second.tracked
                (fun hPulled => absurd hPulled hStill) hPull
              refine ⟨hRest.tracked, hFrame.trans hRest.moved, ?_,
                hRest.knows, ?_, hRest.last, hRest.eof⟩
              · exact fun entry hMem => hRest.grows _ (hGrows _ hMem)
              · simp only [upcomingFrom, hBare, hTrivia]
                exact hRest.upcoming
          · next content hContent =>
              simp only [Except.ok.injEq, Prod.mk.injEq] at hPull
              rcases hPull with ⟨rfl, rfl⟩
              have hT := hCross.second.tracked
              refine ⟨?_, hFrame.trans rfl, hGrows, ?_, ?_, ?_, ?_⟩
              · exact ⟨hT.line, hT.start, hT.recorded, hT.entries,
                  hT.ascending⟩
              · intro tt hSome
                cases hSome
                refine ⟨?_, hCross.second.knows⟩
                exact hCross.first.knows.of_grows hCross.second.grows
              · simp only [upcomingFrom, hBare, hContent]
                rfl
              · intro hNone
                cases hNone
              · exact fun hPulled => absurd hPulled hStill

/- A stream lexed from the source yields sound tokens. -/
theorem pullRawFrom_fits
    (hTracked : Tracked s)
    (hLines : linesStartChars s.source = true)
    (hFits : fits s.source s.lastByte raw = true)
    (hPull : s.pullRawFrom raw = .ok (reply, s')) :
    fits s.source s'.lastByte s'.raw = true ∧
      ∀ tt, reply = some tt → Sound (Bounded s.source) tt := by
  induction raw generalizing s with
  | nil =>
      rw [pullRawFrom] at hPull
      split at hPull
      · simp only [Except.ok.injEq, Prod.mk.injEq] at hPull
        rcases hPull with ⟨rfl, rfl⟩
        refine ⟨hFits, ?_⟩
        intro tt hSome
        cases hSome
      · split at hPull
        · cases hPull
        · next pos s₁ hMove =>
            simp only [Except.ok.injEq, Prod.mk.injEq] at hPull
            rcases hPull with ⟨rfl, rfl⟩
            have hStep := advanceCursorTo_tracked hTracked hMove
            have hPos : Bounded s.source pos :=
              hStep.bounded fun _ _ => isCharBoundary_of_lineStart hLines
            refine ⟨?_, ?_⟩
            · simp only [fits, hStep.lastByte, hStep.boundary,
                Nat.le_refl, decide_true, Bool.and_true]
            · intro tt hSome
              cases hSome
              refine ⟨hPos, hPos, ?_, ?_⟩
              · intro token n hToken
                cases hToken
              · intro text hToken
                cases hToken
  | cons item rest ih =>
      rw [fits] at hFits
      simp only [Bool.and_eq_true] at hFits
      rcases hFits with ⟨⟨⟨-, hCovers⟩, hDots⟩, hRest⟩
      rw [pullRawFrom] at hPull
      split at hPull
      · cases hPull
      · next start stop s₁ hMove =>
          rcases advanceAcross_crossed hTracked hMove with ⟨mid, hCross⟩
          have hFrame := advanceAcross_frame hMove
          have hSource : s₁.source = s.source := by
            rw [hFrame]
            rfl
          rw [← hCross.second.lastByte] at hRest
          split at hPull
          · rw [← hSource] at hLines hRest
            have hTail := ih hCross.second.tracked hLines hRest hPull
            rw [hSource] at hTail
            exact hTail
          · next content hContent =>
              simp only [Except.ok.injEq, Prod.mk.injEq] at hPull
              rcases hPull with ⟨rfl, rfl⟩
              refine ⟨hRest, ?_⟩
              intro tt hSome
              cases hSome
              exact hCross.sound hLines hCovers hDots hContent

theorem isCharBoundary_length
    (source : List UInt8) :
    isCharBoundary source source.length = true := by
  unfold isCharBoundary
  rw [List.getElem?_eq_none (Nat.le_refl _)]
  simp

/- A stream lexed from the source never fails. -/
theorem pullRawFrom_error
    (hTracked : Tracked s)
    (hFail : s.pullRawFrom raw = .error e) :
    e = .SourceSlice ∧ ¬ fits s.source s.lastByte raw = true := by
  induction raw generalizing s with
  | nil =>
      rw [pullRawFrom] at hFail
      split at hFail
      · cases hFail
      · split at hFail
        · next hMove =>
            cases hFail
            rcases advanceCursorTo_error hMove with ⟨rfl, hBounds⟩
            refine ⟨rfl, ?_⟩
            intro hFits
            simp only [fits, Bool.and_eq_true, decide_eq_true_eq] at hFits
            exact hBounds
              ⟨hFits.1, hFits.2, isCharBoundary_length s.source⟩
        · cases hFail
  | cons item rest ih =>
      rw [pullRawFrom] at hFail
      split at hFail
      · next hMove =>
          cases hFail
          rcases advanceAcross_error hTracked hMove with ⟨rfl, hBounds⟩
          refine ⟨rfl, ?_⟩
          intro hFits
          rw [fits] at hFits
          simp only [Bool.and_eq_true, decide_eq_true_eq] at hFits
          rcases hFits with
            ⟨⟨⟨⟨⟨⟨hFirst, hSecond⟩, hLast⟩, hStart⟩, -⟩, -⟩, hRest⟩
          exact hBounds ⟨hFirst, hSecond, hLast, hStart,
            isCharBoundary_of_fits hRest⟩
      · next start stop s₁ hMove =>
          rcases advanceAcross_crossed hTracked hMove with ⟨mid, hCross⟩
          have hSource : s₁.source = s.source := by
            rw [advanceAcross_frame hMove]
            rfl
          split at hFail
          · rcases ih hCross.second.tracked hFail with ⟨rfl, hStuck⟩
            refine ⟨rfl, ?_⟩
            intro hFits
            rw [fits] at hFits
            simp only [Bool.and_eq_true] at hFits
            rw [hSource, hCross.second.lastByte] at hStuck
            exact hStuck hFits.2
          · cases hFail

end Core

end LexFilter

end Borzoi
