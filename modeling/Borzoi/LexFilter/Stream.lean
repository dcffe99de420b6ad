import Borzoi.LexFilter.State

/-
  What pulling a token changes.

  A pull moves the cursor over the raw stream and leaves the rest of
  the state alone.
-/

namespace Borzoi

namespace LexFilter

namespace Core

/- The state `s` with the cursor and the raw stream of `t`. -/
def withCursor
    (s t : Core) :
    Core :=
  { s with
    raw := t.raw
    eofPulled := t.eofPulled
    curLine := t.curLine
    curLineStartByte := t.curLineStartByte
    lineStarts := t.lineStarts
    lastByte := t.lastByte }

/- Only the cursor may differ. -/
def CursorMoved
    (s t : Core) :
    Prop :=
  t = s.withCursor t

theorem CursorMoved.trans
    {s t u : Core}
    (hst : CursorMoved s t)
    (htu : CursorMoved t u) :
    CursorMoved s u := by
  unfold CursorMoved at *
  rw [hst] at htu
  exact htu

variable {s t : Core} {reply : Option TokenTup}

theorem advanceCursorTo_frame
    {target : Nat}
    {pos : Pos}
    (hStep : s.advanceCursorTo target = .ok (pos, t)) :
    CursorMoved s t := by
  unfold advanceCursorTo at hStep
  split at hStep
  · cases hStep
  · simp only [Except.ok.injEq, Prod.mk.injEq] at hStep
    rw [← hStep.2]
    split <;> rfl

theorem advanceAcross_frame
    {span : Lexer.Span}
    {start stop : Pos}
    (hStep : s.advanceAcross span = .ok (start, stop, t)) :
    CursorMoved s t := by
  unfold advanceAcross at hStep
  split at hStep
  · cases hStep
  · next s₁ hFirst =>
      split at hStep
      · cases hStep
      · next s₂ hSecond =>
          simp only [Except.ok.injEq, Prod.mk.injEq] at hStep
          rw [← hStep.2.2]
          exact (advanceCursorTo_frame hFirst).trans
            (advanceCursorTo_frame hSecond)

theorem pullRawFrom_frame
    {raw : List Lexer.RawItem}
    (hStep : s.pullRawFrom raw = .ok (reply, t)) :
    CursorMoved s t := by
  induction raw generalizing s with
  | nil =>
      rw [pullRawFrom] at hStep
      split at hStep
      · simp only [Except.ok.injEq, Prod.mk.injEq] at hStep
        rw [← hStep.2]
        rfl
      · split at hStep
        · cases hStep
        · next s₁ hMove =>
            simp only [Except.ok.injEq, Prod.mk.injEq] at hStep
            rw [← hStep.2]
            exact (advanceCursorTo_frame hMove).trans rfl
  | cons item rest ih =>
      rw [pullRawFrom] at hStep
      split at hStep
      · cases hStep
      · next s₁ hMove =>
          split at hStep
          · exact (advanceAcross_frame hMove).trans (ih hStep)
          · simp only [Except.ok.injEq, Prod.mk.injEq] at hStep
            rw [← hStep.2]
            exact (advanceAcross_frame hMove).trans rfl

/- Pulling a token moves the cursor only. -/
theorem pullRaw_frame
    (hStep : s.pullRaw = .ok (reply, t)) :
    CursorMoved s t :=
  pullRawFrom_frame hStep

/- A peek reads the delayed stack or pulls a token onto it. -/
theorem peekNextTokenTup_cases
    (hStep : s.peekNextTokenTup = .ok (reply, t)) :
    (∃ d rest, s.delayed = d :: rest ∧ reply = some d.tup ∧ t = s) ∨
      (s.delayed = [] ∧ reply = none ∧ s.pullRaw = .ok (none, t)) ∨
      (∃ fresh u, s.delayed = [] ∧ reply = some fresh ∧
        s.pullRaw = .ok (some fresh, u) ∧
        t = u.delayToken fresh) := by
  unfold peekNextTokenTup at hStep
  split at hStep
  · next d rest hDelayed =>
      simp only [Except.ok.injEq, Prod.mk.injEq] at hStep
      exact .inl ⟨d, rest, hDelayed, hStep.1.symm, hStep.2.symm⟩
  · next hDelayed =>
      split at hStep
      · cases hStep
      · next u hPull =>
          simp only [Except.ok.injEq, Prod.mk.injEq] at hStep
          rcases hStep with ⟨rfl, rfl⟩
          exact .inr (.inl ⟨hDelayed, rfl, hPull⟩)
      · next fresh u hPull =>
          simp only [Except.ok.injEq, Prod.mk.injEq] at hStep
          exact .inr (.inr ⟨fresh, u, hDelayed, hStep.1.symm, hPull,
            hStep.2.symm⟩)

/- A pop takes the top of the delayed stack or pulls a token. -/
theorem popNextTokenTup_cases
    (hStep : s.popNextTokenTup = .ok (reply, t)) :
    (∃ d rest, s.delayed = d :: rest ∧ reply = some d.tup ∧
        t = { s with delayed := rest }) ∨
      (s.delayed = [] ∧ s.pullRaw = .ok (reply, t)) := by
  unfold popNextTokenTup at hStep
  split at hStep
  · next d rest hDelayed =>
      simp only [Except.ok.injEq, Prod.mk.injEq] at hStep
      exact .inl ⟨d, rest, hDelayed, hStep.1.symm, hStep.2.symm⟩
  · next hDelayed =>
      exact .inr ⟨hDelayed, hStep⟩

end Core

end LexFilter

end Borzoi
