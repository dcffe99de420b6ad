import Borzoi.LexFilter.Operations
import Borzoi.LexFilter.Stream

/-
  The line cursor.

  The recorded line starts are the true ones: they ascend, the last
  one is that of the cursor's line, and every position handed out is
  on a recorded line.
-/

namespace Borzoi

namespace LexFilter

/- The line breaks before a byte. -/
def breaks
    (source : List UInt8)
    (i : Nat) :
    Nat :=
  (source.take i).count newlineByte

/- A line starts at a byte. -/
def LineStart
    (source : List UInt8)
    (line b : Nat) :
    Prop :=
  (line = 1 ∧ b = initialLineStart source) ∨
    (0 < b ∧ source[b - 1]? = some newlineByte ∧
      line = 1 + breaks source b)

/- A position that is a character boundary on its line. -/
def Bounded
    (source : List UInt8)
    (pos : Pos) :
    Prop :=
  ∃ b, LineStart source pos.line b ∧
    isCharBoundary source (b + pos.col) = true ∧
    pos.line = 1 + breaks source (b + pos.col)

section Lines

variable {source : List UInt8} {line b b' : Nat}

theorem breaks_mono
    (hLe : b ≤ b') :
    breaks source b ≤ breaks source b' := by
  unfold breaks
  exact (List.take_sublist_take_left hLe).count_le _

/- A line break is counted behind itself. -/
theorem breaks_succ
    (hByte : source[b]? = some newlineByte) :
    breaks source (b + 1) = breaks source b + 1 := by
  unfold breaks
  rw [List.take_add_one, hByte]
  simp [List.count_append]

/- Two line breaks end different lines. -/
theorem lineStart_lt
    (hByte : 0 < b' ∧ source[b' - 1]? = some newlineByte)
    (hLt : b < b') :
    breaks source b < breaks source b' := by
  have hSucc := breaks_succ hByte.2
  have hMono : breaks source b ≤ breaks source (b' - 1) :=
    breaks_mono (by omega)
  have hEq : b' - 1 + 1 = b' := by omega
  rw [hEq] at hSucc
  omega

/- A line starts at one byte only. -/
theorem LineStart.unique
    (hLeft : LineStart source line b)
    (hRight : LineStart source line b') :
    b = b' := by
  have hBreak : ∀ {c : Nat}, 0 < c →
      source[c - 1]? = some newlineByte → 0 < breaks source c := by
    intro c hPos hByte
    exact Nat.lt_of_le_of_lt (Nat.zero_le _)
      (lineStart_lt ⟨hPos, hByte⟩ hPos)
  rcases hLeft with ⟨hOne, rfl⟩ | ⟨hPos, hByte, hLine⟩
  · rcases hRight with ⟨-, rfl⟩ | ⟨hPos', hByte', hLine'⟩
    · rfl
    · have := hBreak hPos' hByte'
      omega
  · rcases hRight with ⟨hOne, -⟩ | ⟨hPos', hByte', hLine'⟩
    · have := hBreak hPos hByte
      omega
    · rcases Nat.lt_trichotomy b b' with hLt | hEq | hLt
      · have := lineStart_lt ⟨hPos', hByte'⟩ hLt
        omega
      · exact hEq
      · have := lineStart_lt ⟨hPos, hByte⟩ hLt
        omega

/- A byte order mark holds no line break. -/
theorem breaks_initialLineStart
    (source : List UInt8) :
    breaks source (initialLineStart source) = 0 := by
  unfold breaks initialLineStart
  split
  · next hMark =>
      rw [← List.prefix_iff_eq_take.1 (List.isPrefixOf_iff_prefix.1 hMark)]
      rfl
  · rfl

/- The first byte of a line is on it. -/
theorem LineStart.line_eq
    (hStart : LineStart source line b) :
    line = 1 + breaks source b := by
  rcases hStart with ⟨rfl, rfl⟩ | ⟨-, -, hLine⟩
  · rw [breaks_initialLineStart]
  · exact hLine

end Lines

variable {s s' : Core} {bytes seg source : List UInt8} {i target : Nat}
variable {pos : Pos} {c : UInt8}

theorem rfindByte_none
    (hNone : rfindByte c bytes = none) :
    bytes.count c = 0 := by
  induction bytes with
  | nil =>
      rfl
  | cons x xs ih =>
      rw [rfindByte] at hNone
      split at hNone
      · cases hNone
      · next hTail =>
          split at hNone
          · cases hNone
          · next hOther =>
              rw [List.count_cons_of_ne hOther]
              exact ih hTail

theorem rfindByte_some
    (hSome : rfindByte c bytes = some i) :
    bytes[i]? = some c ∧ (bytes.drop (i + 1)).count c = 0 := by
  induction bytes generalizing i with
  | nil =>
      cases hSome
  | cons x xs ih =>
      rw [rfindByte] at hSome
      split at hSome
      · next j hTail =>
          cases hSome
          exact ih hTail
      · next hTail =>
          split at hSome
          · next hHere =>
              cases hSome
              rw [hHere]
              exact ⟨rfl, rfindByte_none hTail⟩
          · cases hSome

/- The cursor and the recorded lines agree with the source. -/
structure Tracked
    (s : Core) :
    Prop where
  line : s.curLine = 1 + breaks s.source s.lastByte
  start : LineStart s.source s.curLine s.curLineStartByte
  recorded : (s.curLine, s.curLineStartByte) ∈ s.lineStarts
  entries : ∀ entry ∈ s.lineStarts,
    LineStart s.source entry.1 entry.2 ∧ entry.1 ≤ s.curLine
  ascending : s.lineStarts.Pairwise fun a b => a.1 < b.1

/- A line with a recorded start. -/
def Core.Knows
    (s : Core)
    (line : Nat) :
    Prop :=
  ∃ b, (line, b) ∈ s.lineStarts

theorem isCharBoundary_le
    (hBoundary : isCharBoundary source i = true) :
    i ≤ source.length := by
  unfold isCharBoundary at hBoundary
  rw [Bool.or_eq_true, beq_iff_eq] at hBoundary
  rcases hBoundary with rfl | hByte
  · exact Nat.zero_le _
  · split at hByte
    · next hSome =>
        exact Nat.le_of_lt (List.getElem?_eq_some_iff.1 hSome).1
    · exact Nat.le_of_eq (beq_iff_eq.1 hByte)

theorem sliceSource_ok
    {a b : Nat}
    (hSlice : sliceSource source a b = .ok seg) :
    a ≤ b ∧ isCharBoundary source b = true ∧
      source.take b = source.take a ++ seg ∧
      ∀ i, i < seg.length → seg[i]? = source[a + i]? := by
  unfold sliceSource at hSlice
  split at hSlice
  · next hBounds =>
      cases hSlice
      refine ⟨hBounds.1, hBounds.2.2, ?_, ?_⟩
      · have hSplit : b = a + (b - a) := by
          have := hBounds.1
          omega
        conv_lhs => rw [hSplit, List.take_add]
      · intro i hi
        rw [List.length_take, List.length_drop] at hi
        rw [List.getElem?_take, if_pos (by omega), List.getElem?_drop]
  · cases hSlice

/- What moving the cursor to `target` yields. -/
structure Advanced
    (s : Core)
    (target : Nat)
    (pos : Pos)
    (s' : Core) :
    Prop where
  tracked : Tracked s'
  moved : s.CursorMoved s'
  raw : s'.raw = s.raw
  eofPulled : s'.eofPulled = s.eofPulled
  lastByte : s'.lastByte = target
  order : s.lastByte ≤ target
  boundary : isCharBoundary s.source target = true
  place : pos = ⟨s'.curLine, target - s'.curLineStartByte⟩
  grows : ∀ entry ∈ s.lineStarts, entry ∈ s'.lineStarts

namespace Core

/- The lines recorded so far stay recorded. -/
theorem Knows.of_grows
    {line : Nat}
    (hKnows : s.Knows line)
    (hGrows : ∀ entry ∈ s.lineStarts, entry ∈ s'.lineStarts) :
    s'.Knows line := by
  rcases hKnows with ⟨b, hMem⟩
  exact ⟨b, hGrows _ hMem⟩

/- A segment without a line break keeps the line. -/
theorem tracked_sameLine
    (hTracked : Tracked s)
    (hTake : s.source.take target = s.source.take s.lastByte ++ seg)
    (hNone : seg.count newlineByte = 0) :
    Tracked { s with lastByte := target } := by
  refine ⟨?_, hTracked.start, hTracked.recorded, hTracked.entries,
    hTracked.ascending⟩
  have hLine := hTracked.line
  dsimp only
  unfold breaks at *
  rw [hTake, List.count_append, hNone]
  exact hLine

/- A segment with line breaks records the last line it reaches. -/
theorem tracked_nextLine
    (hTracked : Tracked s)
    (hTake : s.source.take target = s.source.take s.lastByte ++ seg)
    (hBytes : ∀ j, j < seg.length →
      seg[j]? = s.source[s.lastByte + j]?)
    (hLast : rfindByte newlineByte seg = some i) :
    Tracked { s with
      curLineStartByte := s.lastByte + i + 1
      curLine := s.curLine + seg.count newlineByte
      lineStarts := s.lineStarts ++
        [(s.curLine + seg.count newlineByte, s.lastByte + i + 1)]
      lastByte := target } := by
  rcases rfindByte_some hLast with ⟨hByte, hRest⟩
  have hi : i < seg.length := (List.getElem?_eq_some_iff.1 hByte).1
  have hSource : s.source[s.lastByte + i]? = some newlineByte := by
    rw [← hBytes i hi]
    exact hByte
  have hLine := hTracked.line
  have hCount : seg.count newlineByte =
      (seg.take (i + 1)).count newlineByte := by
    conv_lhs => rw [← List.take_append_drop (i + 1) seg]
    rw [List.count_append, hRest, Nat.add_zero]
  have hPositive : 0 < seg.count newlineByte := by
    rw [List.count_pos_iff]
    exact List.mem_of_getElem? hByte
  -- the breaks up to the line's start are those up to the target
  have hStartBreaks : breaks s.source (s.lastByte + i + 1) =
      breaks s.source s.lastByte + seg.count newlineByte := by
    have hPrefix : s.source.take (s.lastByte + i + 1) =
        s.source.take s.lastByte ++ seg.take (i + 1) := by
      have hLe : s.lastByte + i + 1 ≤ target := by
        have hLength := congrArg List.length hTake
        rw [List.length_append, List.length_take,
          List.length_take] at hLength
        have hIn := (List.getElem?_eq_some_iff.1 hSource).1
        omega
      have hCut := congrArg (List.take (s.lastByte + i + 1)) hTake
      rw [List.take_take, Nat.min_eq_left hLe, List.take_append] at hCut
      have hIn := (List.getElem?_eq_some_iff.1 hSource).1
      rw [hCut, List.take_take, List.length_take]
      congr 1
      · congr 1
        omega
      · congr 1
        omega
    unfold breaks
    rw [hPrefix, List.count_append, ← hCount]
  refine ⟨?_, ?_, ?_, ?_, ?_⟩
  · dsimp only
    rw [hLine]
    unfold breaks
    rw [hTake, List.count_append]
    omega
  · refine .inr ⟨Nat.succ_pos _, hSource, ?_⟩
    dsimp only
    rw [hStartBreaks, hLine]
    omega
  · exact List.mem_append_right _ List.mem_cons_self
  · intro entry hMem
    rcases List.mem_append.1 hMem with hOld | hNew
    · have hEntry := hTracked.entries entry hOld
      exact ⟨hEntry.1, Nat.le_trans hEntry.2 (Nat.le_add_right _ _)⟩
    · rw [List.mem_singleton.1 hNew]
      refine ⟨.inr ⟨Nat.succ_pos _, hSource, ?_⟩, Nat.le_refl _⟩
      dsimp only
      rw [hStartBreaks, hLine]
      omega
  · refine List.pairwise_append.2 ⟨hTracked.ascending,
      List.pairwise_singleton _ _, ?_⟩
    intro a ha b hb
    rw [List.mem_singleton.1 hb]
    have hEntry := (hTracked.entries a ha).2
    dsimp only
    omega

/- Moving the cursor keeps it in step with the source. -/
theorem advanceCursorTo_tracked
    (hTracked : Tracked s)
    (hStep : s.advanceCursorTo target = .ok (pos, s')) :
    Advanced s target pos s' := by
  have hMoved := advanceCursorTo_frame hStep
  unfold advanceCursorTo at hStep
  split at hStep
  · cases hStep
  · next seg hSlice =>
      rcases sliceSource_ok hSlice with
        ⟨hOrder, hBoundary, hTake, hBytes⟩
      simp only [Except.ok.injEq, Prod.mk.injEq] at hStep
      rcases hStep with ⟨rfl, rfl⟩
      revert hMoved
      split
      · next hNone =>
          intro hMoved
          exact ⟨tracked_sameLine hTracked hTake (rfindByte_none hNone),
            hMoved, rfl, rfl, rfl, hOrder, hBoundary, rfl,
            fun _ => id⟩
      · next i hLast =>
          intro hMoved
          exact ⟨tracked_nextLine hTracked hTake hBytes hLast, hMoved,
            rfl, rfl, rfl, hOrder, hBoundary, rfl,
            fun _ hMem => List.mem_append_left _ hMem⟩

end Core

/- The position handed out is on a recorded line. -/
theorem Advanced.knows
    (hStep : Advanced s target pos s') :
    s'.Knows pos.line := by
  rw [hStep.place]
  exact ⟨_, hStep.tracked.recorded⟩

/- The position handed out is a character boundary. -/
theorem Advanced.bounded
    (hStep : Advanced s target pos s')
    (hLines : ∀ line b, LineStart s.source line b →
      isCharBoundary s.source b = true) :
    Bounded s.source pos := by
  have hSource : s'.source = s.source := by
    rw [hStep.moved]
    rfl
  have hStart := hStep.tracked.start
  rw [hSource] at hStart
  have hLine := hStep.tracked.line
  rw [hSource, hStep.lastByte] at hLine
  rw [hStep.place]
  refine ⟨_, hStart, ?_⟩
  dsimp only
  rcases Nat.le_total s'.curLineStartByte target with hLe | hLe
  · rw [Nat.add_sub_cancel' hLe]
    exact ⟨hStep.boundary, hLine⟩
  · rw [Nat.sub_eq_zero_of_le hLe]
    exact ⟨hLines _ _ hStart, hStart.line_eq⟩

/- The lookup of a recorded line finds its start. -/
theorem Tracked.byteOffset
    {line col : Nat}
    (hTracked : Tracked s)
    (hKnows : s.Knows line) :
    ∃ b, LineStart s.source line b ∧
      s.byteOffset ⟨line, col⟩ = .ok (b + col) := by
  rcases hKnows with ⟨b, hMem⟩
  unfold Core.byteOffset
  cases hFind : s.lineStarts.find? fun entry => entry.1 == line with
  | none =>
      have hMiss := List.find?_eq_none.1 hFind _ hMem
      simp at hMiss
  | some entry =>
      have hEntry := (hTracked.entries entry
        (List.mem_of_find?_eq_some hFind)).1
      have hLine := List.find?_some hFind
      rw [beq_iff_eq] at hLine
      rw [hLine] at hEntry
      exact ⟨entry.2, hEntry, rfl⟩

/- The initial cursor. -/
theorem Tracked.new
    (source : List UInt8)
    (lang : LanguageVersion)
    (raw : List Lexer.RawItem) :
    Tracked (Filter.new source lang raw).toCore := by
  have hStart : LineStart source 1 (initialLineStart source) :=
    .inl ⟨rfl, rfl⟩
  refine ⟨?_, hStart, List.mem_cons_self, ?_,
    List.pairwise_singleton _ _⟩
  · simp [Filter.new, breaks]
  · intro entry hMem
    rw [List.mem_singleton.1 hMem]
    exact ⟨hStart, Nat.le_refl 1⟩

end LexFilter

end Borzoi
