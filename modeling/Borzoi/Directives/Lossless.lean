import Borzoi.Directives.Driver
import Borzoi.Text.Tiling

/-
  The full-trivia stream covers the source.

  What the driver queues tiles the source up to the end of what it has
  covered.  In an active branch that end is the driver's place.  In a
  dead branch it stays behind, until a visible directive or the end of
  the source fills the gap.

  Main declarations:
    * `Grows`
    * `Covered`
    * `Covered.step`
    * `lex_full_trivia_lossless`
-/

namespace Borzoi

namespace Directives

open Lexer
open Program
open Text

/- The items tile the source between two places. -/
def CoverTiles
    (lo : Nat)
    (items : List CoreItem)
    (hi : Nat) :
    Prop :=
  Tiles (fun item => item.span.start) (fun item => item.span.stop) lo
    (items.filter CoreItem.coversSource) hi

namespace CoverTiles

variable {xs ys : List CoreItem} {lo mid hi : Nat}

theorem append
    (hFirst : CoverTiles lo xs mid)
    (hSecond : CoverTiles mid ys hi) :
    CoverTiles lo (xs ++ ys) hi := by
  unfold CoverTiles
  rw [List.filter_append]
  exact Tiles.append hFirst hSecond

theorem single
    {item : CoreItem}
    (hCovers : item.coversSource = true)
    (hStart : item.span.start = lo)
    (hStop : item.span.stop = hi)
    (hLt : lo < hi) :
    CoverTiles lo [item] hi := by
  unfold CoverTiles
  rw [List.filter_cons_of_pos hCovers]
  exact ⟨hStart, Nat.lt_of_lt_of_eq hLt hStop.symm, hStop⟩

/- Diagnostics cover nothing. -/
theorem nothing
    (hNone : ∀ item ∈ xs, item.coversSource = false) :
    CoverTiles lo xs lo := by
  have hEmpty : xs.filter CoreItem.coversSource = [] := by
    apply List.filter_eq_nil_iff.2
    intro item hMem
    rw [hNone item hMem]
    exact Bool.false_ne_true
  unfold CoverTiles
  rw [hEmpty]
  exact rfl

end CoverTiles

/-
  The driver queues at most `cost` items, and they tile the source from
  what was covered before to what is covered after.
-/
structure Grows
    (cost : Nat)
    (d d' : DriverCore) :
    Prop where
  queued : ∃ items, d'.pending = d.pending ++ items ∧
    items.length ≤ cost ∧ CoverTiles d.coveredEnd items d'.coveredEnd
  source : d'.source = d.source
  mode : d'.triviaMode = d.triviaMode

namespace Grows

variable {d d₁ d₂ : DriverCore} {m n : Nat}

theorem same
    (hPending : d₁.pending = d.pending)
    (hEnd : d₁.coveredEnd = d.coveredEnd)
    (hSource : d₁.source = d.source)
    (hMode : d₁.triviaMode = d.triviaMode) :
    Grows 0 d d₁ := by
  refine ⟨⟨[], ?_, Nat.le_refl 0, ?_⟩, hSource, hMode⟩
  · rw [hPending, List.append_nil]
  · exact hEnd.symm

theorem refl : Grows 0 d d :=
  same rfl rfl rfl rfl

theorem trans
    (hFirst : Grows m d d₁)
    (hSecond : Grows n d₁ d₂) :
    Grows (m + n) d d₂ := by
  rcases hFirst.queued with ⟨xs, hXs, hLenXs, hTilesXs⟩
  rcases hSecond.queued with ⟨ys, hYs, hLenYs, hTilesYs⟩
  refine ⟨⟨xs ++ ys, ?_, ?_, hTilesXs.append hTilesYs⟩, ?_, ?_⟩
  · rw [hYs, hXs, List.append_assoc]
  · rw [List.length_append]
    exact Nat.add_le_add hLenXs hLenYs
  · rw [hSecond.source, hFirst.source]
  · rw [hSecond.mode, hFirst.mode]

theorem weaken
    (hGrows : Grows m d d₁)
    (hLe : m ≤ n) :
    Grows n d d₁ := by
  rcases hGrows.queued with ⟨items, hItems, hLen, hTiles⟩
  exact ⟨⟨items, hItems, Nat.le_trans hLen hLe, hTiles⟩, hGrows.source,
    hGrows.mode⟩

end Grows

variable {cost : Nat}

namespace DriverCore

variable {d : DriverCore}

theorem queue_grows
    {items : List CoreItem}
    (hCount : items.length ≤ cost)
    (hNone : ∀ item ∈ items, item.coversSource = false) :
    Grows cost d (d.queue items) :=
  ⟨⟨items, rfl, hCount, CoverTiles.nothing hNone⟩, rfl, rfl⟩

theorem fillInactiveGap_grows
    (hMode : d.triviaMode = true)
    (upTo : Nat) :
    Grows 1 d (d.fillInactiveGap upTo) ∧
      (d.fillInactiveGap upTo).coveredEnd = max d.coveredEnd upTo := by
  unfold fillInactiveGap
  by_cases hGap : d.coveredEnd < upTo
  · rw [if_pos ⟨hMode, hGap⟩]
    constructor
    · refine ⟨⟨_, rfl, Nat.le_refl 1, ?_⟩, rfl, rfl⟩
      exact CoverTiles.single rfl rfl rfl hGap
    · exact (Nat.max_eq_right (Nat.le_of_lt hGap)).symm
  · rw [if_neg (fun h => hGap h.2)]
    constructor
    · exact Grows.refl.weaken (Nat.zero_le 1)
    · exact (Nat.max_eq_left (Nat.le_of_not_lt hGap)).symm

/- Covering a range closes the gap in front of it. -/
theorem cover_grows
    (item : CoreItem)
    (hMode : d.triviaMode = true)
    (hCovers : item.coversSource = true)
    (hBehind : d.coveredEnd ≤ item.span.start)
    (hLt : item.span.start < item.span.stop) :
    Grows 2 d (d.cover item) ∧
      (d.cover item).coveredEnd = item.span.stop := by
  rcases fillInactiveGap_grows hMode item.span.start with
    ⟨hFill, hEnd⟩
  rw [Nat.max_eq_right hBehind] at hEnd
  have hStop : (d.cover item).coveredEnd = item.span.stop := by
    unfold cover
    dsimp only
    rw [hEnd]
    exact Nat.max_eq_right (Nat.le_of_lt hLt)
  have hItem : Grows 1 (d.fillInactiveGap item.span.start)
      (d.cover item) := by
    refine ⟨⟨[item], rfl, Nat.le_refl 1, ?_⟩, rfl, rfl⟩
    rw [hStop, hEnd]
    exact CoverTiles.single hCovers rfl rfl hLt
  exact ⟨hFill.trans hItem, hStop⟩

theorem fillInactiveGap_fields
    (upTo : Nat) :
    (d.fillInactiveGap upTo).pos = d.pos ∧
      (d.fillInactiveGap upTo).stack = d.stack ∧
      (d.fillInactiveGap upTo).lexer = d.lexer ∧
      (d.fillInactiveGap upTo).eofDone = d.eofDone := by
  unfold fillInactiveGap
  split
  · exact ⟨rfl, rfl, rfl, rfl⟩
  · exact ⟨rfl, rfl, rfl, rfl⟩

theorem cover_fields
    (item : CoreItem) :
    (d.cover item).pos = d.pos ∧
      (d.cover item).stack = d.stack ∧
      (d.cover item).lexer = d.lexer ∧
      (d.cover item).eofDone = d.eofDone :=
  fillInactiveGap_fields item.span.start

end DriverCore

/- A lexer that reads the source from its base on. -/
structure Synced
    (source : List UInt8)
    (state : LexerState) :
    Prop where
  ready : state.iter.Ready
  source : state.iter.source = source.drop state.base
  place : state.base + state.iter.place = state.nextPos

/- Where the driver stands, and what it has covered. -/
structure Placed
    (d : DriverCore) :
    Prop where
  mode : d.triviaMode = true
  behind : d.coveredEnd ≤ d.pos
  within : d.pos ≤ d.source.length
  active : d.currentlyActive = true → d.coveredEnd = d.pos
  lexer : ∀ state, d.lexer = some state → Synced d.source state
  ended : d.eofDone = true → d.coveredEnd = d.source.length

/- One turn that reads on. -/
structure Advances
    (d d' : DriverCore) :
    Prop where
  placed : Placed d'
  grows : Grows 4 d d'
  further : d.pos < d'.pos
  deeper : d'.stack.length ≤ d.stack.length + 1
  ended : d'.eofDone = d.eofDone

section Moves

variable {d d₁ : DriverCore} {range : Span}

theorem Placed.not_ended
    (hPlaced : Placed d)
    (hMore : d.pos < d.source.length) :
    d.eofDone = false := by
  by_contra hEof
  have hEnd := hPlaced.ended (Bool.not_eq_false _ ▸ hEof)
  have hBehind := hPlaced.behind
  omega

theorem invalidateLexer_fields :
    d.invalidateLexer.lexer = none ∧
      d.invalidateLexer.pos = d.pos ∧
      d.invalidateLexer.stack = d.stack ∧
      d.invalidateLexer.coveredEnd = d.coveredEnd ∧
      d.invalidateLexer.eofDone = d.eofDone ∧
      Grows 0 d d.invalidateLexer := by
  unfold DriverCore.invalidateLexer
  split
  · exact ⟨rfl, rfl, rfl, rfl, rfl, Grows.same rfl rfl rfl rfl⟩
  · next hNone =>
      exact ⟨hNone, rfl, rfl, rfl, rfl, Grows.refl⟩

/- Moving on to a place up to which the source is covered. -/
theorem advances_skipTo
    {pos : Nat}
    (hPlaced : Placed d)
    (hGrows : Grows 4 d d₁)
    (hEof : d₁.eofDone = d.eofDone)
    (hDeeper : d₁.stack.length ≤ d.stack.length + 1)
    (hFurther : d.pos < pos)
    (hWithin : pos ≤ d.source.length)
    (hBehind : d₁.coveredEnd ≤ pos)
    (hActive : d₁.currentlyActive = true → d₁.coveredEnd = pos) :
    Advances d (d₁.skipTo pos) := by
  unfold DriverCore.skipTo
  have hMoved : Grows 0 d₁ { d₁ with pos := pos } :=
    Grows.same rfl rfl rfl rfl
  rcases @invalidateLexer_fields { d₁ with pos := pos } with
    ⟨hLexer, hPos, hStack, hEnd, hEof', hSame⟩
  have hAll := (hGrows.trans hMoved).trans hSame
  have hOpen := hPlaced.not_ended (Nat.lt_of_lt_of_le hFurther hWithin)
  refine ⟨⟨?_, ?_, ?_, ?_, ?_, ?_⟩, hAll, ?_, ?_, ?_⟩
  · rw [hAll.mode]
    exact hPlaced.mode
  · rw [hEnd, hPos]
    exact hBehind
  · rw [hPos, hAll.source]
    exact hWithin
  · unfold DriverCore.currentlyActive
    rw [hStack, hEnd, hPos]
    exact hActive
  · intro state hSome
    rw [hLexer] at hSome
    cases hSome
  · intro hDone
    rw [hEof', hEof, hOpen] at hDone
    cases hDone
  · rw [hPos]
    exact hFurther
  · rw [hStack]
    exact hDeeper
  · rw [hEof', hEof]

end Moves

------------------------------------------------------------
-- Directives
------------------------------------------------------------

section Handlers

variable {d : DriverCore}

theorem recordLine_fields
    (r : Recognised) :
    Grows 0 d (d.recordLine r) ∧
      (d.recordLine r).stack = d.stack ∧
      (d.recordLine r).coveredEnd = d.coveredEnd ∧
      (d.recordLine r).eofDone = d.eofDone := by
  unfold DriverCore.recordLine DriverCore.generatedLineAt
  split
  · exact ⟨Grows.same rfl rfl rfl rfl, rfl, rfl, rfl⟩
  · exact ⟨Grows.refl, rfl, rfl, rfl⟩

variable {parentActive : Bool} {c : DriverCore.Condition} {stack : List Frame}
variable {range : Span}

/- A marker covers the line of its directive. -/
theorem emitTriviaMarker_grows
    (marker : TriviaToken)
    (hMode : d.triviaMode = true)
    (hBehind : d.coveredEnd ≤ range.start)
    (hLt : range.start < range.stop) :
    Grows 2 d (d.emitTriviaMarker marker range) ∧
      (d.emitTriviaMarker marker range).coveredEnd = range.stop ∧
      (d.emitTriviaMarker marker range).stack = d.stack ∧
      (d.emitTriviaMarker marker range).eofDone = d.eofDone := by
  rcases DriverCore.cover_grows ⟨.ok marker, range⟩ hMode rfl hBehind
    hLt with ⟨hGrows, hEnd⟩
  rcases DriverCore.cover_fields (d := d) ⟨.ok marker, range⟩ with
    ⟨-, hStack, -, hEof⟩
  exact ⟨hGrows, hEnd, hStack, hEof⟩

theorem handleTrivia_advances
    {r : Recognised}
    (hPlaced : Placed d)
    (hRange : InLine d.pos d.source.length r.range)
    (hKind : r.directive.kind = none) :
    Advances d (d.handleTrivia r) := by
  rcases hRange with ⟨hStart, hLt, hWithin⟩
  unfold DriverCore.handleTrivia
  by_cases hActive : d.currentlyActive = true
  · rw [if_pos hActive]
    dsimp only
    rcases recordLine_fields (d := d) r with
      ⟨hRecord, hStack, hEnd, hEof⟩
    have hMarker : ∃ marker,
        directiveTriviaToken r.directive = some marker := by
      cases hDirective : r.directive with
      | Line number file =>
          exact ⟨_, rfl⟩
      | NoWarn =>
          exact ⟨_, rfl⟩
      | WarnOn =>
          exact ⟨_, rfl⟩
      | _ =>
          rw [hDirective] at hKind
          cases hKind
    rcases hMarker with ⟨marker, hMarker⟩
    have hMode : (d.recordLine r).triviaMode = true := by
      rw [hRecord.mode]
      exact hPlaced.mode
    rw [hMarker]
    dsimp only
    rw [if_pos hMode]
    have hBehind : (d.recordLine r).coveredEnd ≤ r.range.start := by
      rw [hEnd, hStart]
      exact hPlaced.behind
    have hNonempty : r.range.start < r.range.stop := by
      rw [hStart]
      exact hLt
    rcases emitTriviaMarker_grows marker hMode hBehind hNonempty with
      ⟨hGrows, hEnd', hStack', hEof'⟩
    have hAll := (hRecord.trans hGrows).weaken (Nat.le_add_right 2 2)
    apply advances_skipTo hPlaced hAll
    · rw [hEof', hEof]
    · rw [hStack', hStack]
      exact Nat.le_succ _
    · exact hLt
    · exact hWithin
    · exact Nat.le_of_eq hEnd'
    · intro _
      exact hEnd'
  · rw [if_neg hActive]
    apply advances_skipTo hPlaced (Grows.refl.weaken (Nat.zero_le 4))
      rfl (Nat.le_succ _) hLt hWithin
    · exact Nat.le_trans hPlaced.behind (Nat.le_of_lt hLt)
    · intro hYes
      exact absurd hYes hActive

/- A branch is active behind a directive only if the directive is. -/
theorem parentActive_of_applied
    {kind : DirectiveKind}
    {exprValue : Option Bool}
    (hParent : parentActive = parentActiveFor stack kind)
    (hLit : allLit (applyDirective stack range kind exprValue
      parentActive).1 = true) :
    parentActive = true := by
  cases kind with
  | If =>
      have hBoth : (parentActive && exprValue.getD false) = true ∧
          allLit stack = true := by
        simpa [applyDirective, allLit] using hLit
      rw [hParent]
      exact hBoth.2
  | Elif =>
      cases stack with
      | nil =>
          exact hParent
      | cons top below =>
          rw [hParent]
          simp only [applyDirective, allLit, List.all_cons,
            Bool.and_eq_true] at hLit
          exact hLit.2
  | Else =>
      cases stack with
      | nil =>
          exact hParent
      | cons top below =>
          rw [hParent]
          simp only [applyDirective, allLit, List.all_cons,
            Bool.and_eq_true] at hLit
          exact hLit.2
  | EndIf =>
      cases stack with
      | nil =>
          exact hParent
      | cons top below =>
          rw [hParent]
          exact hLit

/- An active branch sees its directives. -/
theorem parentActiveFor_of_lit
    (kind : DirectiveKind)
    (hLit : allLit stack = true) :
    parentActiveFor stack kind = true := by
  have hTail : allLit stack.tail = true := by
    cases stack with
    | nil =>
        rfl
    | cons top below =>
        simp only [allLit, List.all_cons, Bool.and_eq_true] at hLit
        exact hLit.2
  cases kind with
  | If =>
      exact hLit
  | _ =>
      exact hTail

theorem chainDiagnostic_items
    {parentActive : Bool}
    {elseSpan : Option Span}
    {range : Span}
    {e : Span → PreprocError}
    (hDirective : ∀ prev, (diagnostic (e prev) range).coversSource =
      false) :
    (chainDiagnostic parentActive elseSpan range e).length ≤ 1 ∧
      ∀ item ∈ chainDiagnostic parentActive elseSpan range e,
        item.coversSource = false := by
  unfold chainDiagnostic
  cases elseSpan with
  | none =>
      exact ⟨Nat.zero_le 1, nofun⟩
  | some prev =>
      dsimp only
      split
      · constructor
        · exact Nat.le_refl 1
        · intro item hMem
          rw [List.mem_singleton.1 hMem]
          exact hDirective prev
      · exact ⟨Nat.zero_le 1, nofun⟩

/- Applying a directive queues at most one diagnostic. -/
theorem applyDirective_items
    {stack : List Frame}
    {range : Span}
    {kind : DirectiveKind}
    {exprValue : Option Bool}
    {parentActive : Bool} :
    (applyDirective stack range kind exprValue
        parentActive).2.length ≤ 1 ∧
      (∀ item ∈ (applyDirective stack range kind exprValue
        parentActive).2, item.coversSource = false) ∧
      (applyDirective stack range kind exprValue
        parentActive).1.length ≤ stack.length + 1 := by
  have hOne : ∀ e : PreprocError,
      (diagnostic e range).coversSource = false →
      ∀ item ∈ [diagnostic e range], item.coversSource = false := by
    intro e hDirective item hMem
    rw [List.mem_singleton.1 hMem]
    exact hDirective
  cases kind with
  | If =>
      exact ⟨Nat.zero_le 1, nofun, Nat.le_refl _⟩
  | Elif =>
      cases stack with
      | nil =>
          exact ⟨Nat.le_refl 1, hOne _ rfl, Nat.zero_le _⟩
      | cons top below =>
          have hChain := @chainDiagnostic_items parentActive
            top.elseSpan range (.ElifAfterElse range) (fun _ => rfl)
          exact ⟨hChain.1, hChain.2, Nat.le_succ _⟩
  | Else =>
      cases stack with
      | nil =>
          exact ⟨Nat.le_refl 1, hOne _ rfl, Nat.zero_le _⟩
      | cons top below =>
          have hChain := @chainDiagnostic_items parentActive
            top.elseSpan range (.DoubleElse range) (fun _ => rfl)
          exact ⟨hChain.1, hChain.2, Nat.le_succ _⟩
  | EndIf =>
      cases stack with
      | nil =>
          exact ⟨Nat.le_refl 1, hOne _ rfl, Nat.zero_le _⟩
      | cons top below =>
          refine ⟨Nat.zero_le 1, nofun, ?_⟩
          exact Nat.le_trans (Nat.le_succ _) (Nat.le_succ _)

/-
  A step of a handler that queues at most `cost` items and leaves the
  branches alone.
-/
structure Queues
    (cost : Nat)
    (d d' : DriverCore) :
    Prop where
  grows : Grows cost d d'
  stack : d'.stack = d.stack
  ended : d'.eofDone = d.eofDone

theorem Queues.trans
    {d₁ d₂ : DriverCore}
    {m n : Nat}
    (hFirst : Queues m d d₁)
    (hSecond : Queues n d₁ d₂) :
    Queues (m + n) d d₂ := by
  refine ⟨hFirst.grows.trans hSecond.grows, ?_, ?_⟩
  · rw [hSecond.stack, hFirst.stack]
  · rw [hSecond.ended, hFirst.ended]

theorem noteElif_queues
    (c : DriverCore.Condition) :
    Queues 0 d (d.noteElif c) ∧
      (d.noteElif c).coveredEnd = d.coveredEnd := by
  unfold DriverCore.noteElif
  split
  · exact ⟨⟨Grows.same rfl rfl rfl rfl, rfl, rfl⟩, rfl⟩
  · exact ⟨⟨Grows.refl, rfl, rfl⟩, rfl⟩

theorem markCondition_queues
    {c : DriverCore.Condition}
    {parentActive : Bool}
    (hMode : d.triviaMode = true)
    (hBehind : d.coveredEnd ≤ c.range.start)
    (hLt : c.range.start < c.range.stop) :
    Queues 2 d (d.markCondition c parentActive) ∧
      (d.markCondition c parentActive).coveredEnd ≤ c.range.stop ∧
      (parentActive = true →
        (d.markCondition c parentActive).coveredEnd =
          c.range.stop) := by
  unfold DriverCore.markCondition
  by_cases hParent : parentActive = true
  · rw [if_pos ⟨hMode, hParent⟩]
    rcases emitTriviaMarker_grows (ccDirectiveMarker c.kind) hMode
      hBehind hLt with ⟨hGrows, hEnd, hStack, hEof⟩
    refine ⟨⟨hGrows, hStack, hEof⟩, Nat.le_of_eq hEnd, ?_⟩
    intro _
    exact hEnd
  · rw [if_neg (fun h => hParent h.2)]
    refine ⟨⟨?_, rfl, rfl⟩, ?_, ?_⟩
    · exact Grows.refl.weaken (Nat.zero_le 2)
    · exact Nat.le_trans hBehind (Nat.le_of_lt hLt)
    · intro hYes
      exact absurd hYes hParent

theorem reportBody_queues
    (bodyErr : Option DirectiveError)
    (parentActive : Bool) :
    Queues 1 d (d.reportBody bodyErr parentActive) ∧
      (d.reportBody bodyErr parentActive).coveredEnd =
        d.coveredEnd := by
  have hSame : Queues 1 d d :=
    ⟨Grows.refl.weaken (Nat.zero_le 1), rfl, rfl⟩
  unfold DriverCore.reportBody
  cases bodyErr with
  | none =>
      exact ⟨hSame, rfl⟩
  | some e =>
      dsimp only
      split
      · refine ⟨⟨?_, rfl, rfl⟩, rfl⟩
        apply DriverCore.queue_grows (Nat.le_refl 1)
        intro item hMem
        rw [List.mem_singleton.1 hMem]
        rfl
      · exact ⟨hSame, rfl⟩

/- A branch is active behind a directive only if it was visible. -/
theorem applyCondition_grows
    (hParent : parentActive = parentActiveFor d.stack c.kind) :
    Grows 1 d (d.applyCondition c parentActive) ∧
      (d.applyCondition c parentActive).coveredEnd = d.coveredEnd ∧
      (d.applyCondition c parentActive).eofDone = d.eofDone ∧
      (d.applyCondition c parentActive).stack.length ≤
        d.stack.length + 1 ∧
      ((d.applyCondition c parentActive).currentlyActive = true →
        parentActive = true) := by
  unfold DriverCore.applyCondition
  split
  · refine ⟨Grows.refl.weaken (Nat.zero_le 1), rfl, rfl,
      Nat.le_succ _, ?_⟩
    intro hActive
    rw [hParent]
    exact parentActiveFor_of_lit c.kind hActive
  · rcases @applyDirective_items d.stack c.range c.kind c.exprValue
      parentActive with ⟨hCount, hNone, hDeeper⟩
    have hQueue := DriverCore.queue_grows (d := d) hCount hNone
    refine ⟨⟨hQueue.queued, rfl, rfl⟩, rfl, rfl, hDeeper, ?_⟩
    exact parentActive_of_applied hParent

theorem handleCondition_advances
    (hPlaced : Placed d)
    (hRange : InLine d.pos d.source.length c.range) :
    Advances d (d.handleCondition c) := by
  rcases hRange with ⟨hStart, hLt, hWithin⟩
  unfold DriverCore.handleCondition
  dsimp only
  rcases noteElif_queues (d := d) c with ⟨hNotes, hNotedEnd⟩
  have hMode : (d.noteElif c).triviaMode = true := by
    rw [hNotes.grows.mode]
    exact hPlaced.mode
  have hBehind : (d.noteElif c).coveredEnd ≤ c.range.start := by
    rw [hNotedEnd, hStart]
    exact hPlaced.behind
  have hNonempty : c.range.start < c.range.stop := by
    rw [hStart]
    exact hLt
  generalize hParent : parentActiveFor d.stack c.kind = parentActive
  rcases @markCondition_queues _ c parentActive hMode hBehind
    hNonempty with ⟨hMarks, hMarkedEnd, hCovered⟩
  generalize (d.noteElif c).markCondition c parentActive = marked at *
  rcases reportBody_queues (d := marked) c.bodyErr parentActive with
    ⟨hReports, hReportedEnd⟩
  generalize marked.reportBody c.bodyErr parentActive = reported at *
  have hAll := (hNotes.trans hMarks).trans hReports
  have hParent' : parentActive =
      parentActiveFor reported.stack c.kind := by
    rw [hAll.stack, hParent]
  rcases applyCondition_grows hParent' with
    ⟨hApplies, hAppliedEnd, hEof, hDeeper, hActive⟩
  apply advances_skipTo hPlaced (hAll.grows.trans hApplies)
  · rw [hEof, hAll.ended]
  · rw [hAll.stack] at hDeeper
    exact hDeeper
  · exact hLt
  · exact hWithin
  · rw [hAppliedEnd, hReportedEnd]
    exact hMarkedEnd
  · intro hLit
    rw [hAppliedEnd, hReportedEnd]
    exact hCovered (hActive hLit)

theorem handleDirectiveResult_advances
    {result : Except DirectiveError Recognised}
    (hPlaced : Placed d)
    (hRange : InLine d.pos d.source.length (rangeOf result)) :
    Advances d (d.handleDirectiveResult result) := by
  unfold DriverCore.handleDirectiveResult
  cases result with
  | error e =>
      exact handleCondition_advances hPlaced hRange
  | ok r =>
      cases hKind : r.directive.kind with
      | none =>
          dsimp only
          rw [hKind]
          exact handleTrivia_advances hPlaced hRange hKind
      | some kind =>
          dsimp only
          rw [hKind]
          exact handleCondition_advances hPlaced hRange

end Handlers

------------------------------------------------------------
-- Tokens and Dead Lines
------------------------------------------------------------

section Reading

variable {logos : Logos} {d : DriverCore}

/- Restarting the lexer leaves the rest of the driver alone. -/
structure SameReader
    (d d' : DriverCore) :
    Prop where
  grows : Grows 0 d d'
  pos : d'.pos = d.pos
  stack : d'.stack = d.stack
  covered : d'.coveredEnd = d.coveredEnd
  ended : d'.eofDone = d.eofDone

theorem freshLexer_synced
    (hLexers : ∀ state, d.lexer = some state → Synced d.source state) :
    Synced d.source d.freshLexer.1 ∧
      d.freshLexer.1.nextPos = d.pos ∧
      SameReader d d.freshLexer.2 := by
  have hRecreated : Synced d.source ⟨d.pos, d.pos,
      .newWithFrames (d.source.drop d.pos) d.pendingInterpFrames⟩ :=
    ⟨rfl, rfl, rfl⟩
  have hSame : ∀ lexer, SameReader d
      { d with pendingInterpFrames := [], lexer := lexer } :=
    fun _ => ⟨Grows.same rfl rfl rfl rfl, rfl, rfl, rfl, rfl⟩
  unfold DriverCore.freshLexer
  dsimp only
  cases hLexer : d.lexer with
  | none =>
      exact ⟨hRecreated, rfl, hSame none⟩
  | some state =>
      dsimp only
      by_cases hPos : state.nextPos = d.pos
      · rw [if_pos hPos]
        refine ⟨hLexers state hLexer, hPos, ?_⟩
        exact ⟨Grows.refl, rfl, rfl, rfl, rfl⟩
      · rw [if_neg hPos]
        exact ⟨hRecreated, rfl, hSame (some state)⟩

/- The lexer yields a token at the driver's place. -/
theorem nextLogosToken_steps
    (hTiles : logos.Tiles)
    (hLexers : ∀ state, d.lexer = some state → Synced d.source state)
    (hMore : d.pos < d.source.length) :
    ∃ tok span d₁, d.nextLogosToken logos = (some (tok, span), d₁) ∧
      InLine d.pos d.source.length span ∧
      (∀ state, d₁.lexer = some state → Synced d.source state) ∧
      SameReader d d₁ := by
  rcases freshLexer_synced hLexers with ⟨hSynced, hNext, hSame⟩
  unfold DriverCore.nextLogosToken
  generalize d.freshLexer = fresh at hSynced hNext hSame ⊢
  rcases fresh with ⟨state, d₁⟩
  dsimp only at hSynced hNext hSame ⊢
  have hBase := hSynced.place
  have hLength : state.iter.source.length =
      d.source.length - state.base := by
    rw [hSynced.source, List.length_drop]
  have hPlace : state.iter.place < state.iter.source.length := by
    omega
  rcases InterpDriver.next_steps hTiles hSynced.ready hPlace with
    ⟨tok, rel, iter, hIter, hSteps⟩
  have hStart := hSteps.start
  have hNonempty := hSteps.nonempty
  have hStop := hSteps.stop
  rw [hIter]
  refine ⟨tok, _, _, rfl, ⟨?_, ?_, ?_⟩, ?_, ?_⟩
  · dsimp only
    omega
  · dsimp only
    omega
  · dsimp only
    omega
  · intro state' hSome
    cases hSome
    refine ⟨hSteps.ready, ?_, ?_⟩
    · rw [hSteps.source]
      exact hSynced.source
    · rw [hSteps.place]
      exact Nat.add_comm _ _
  · exact ⟨⟨hSame.grows.queued, hSame.grows.source, hSame.grows.mode⟩,
      hSame.pos, hSame.stack, hSame.covered, hSame.ended⟩

theorem tokenItem_covers
    (tok : Except LexError Token)
    (span : Span) :
    (DriverCore.tokenItem tok span).coversSource = true ∧
      (DriverCore.tokenItem tok span).span = span := by
  cases tok with
  | ok token =>
      exact ⟨rfl, rfl⟩
  | error e =>
      exact ⟨rfl, rfl⟩

theorem lexHere_advances
    (hTiles : logos.Tiles)
    (hPlaced : Placed d)
    (hMore : d.pos < d.source.length)
    (hActive : d.currentlyActive = true) :
    ∃ d', d.lexHere logos = (.Continue, d') ∧ Advances d d' := by
  rcases nextLogosToken_steps hTiles hPlaced.lexer hMore with
    ⟨tok, span, d₁, hToken, ⟨hStart, hLt, hWithin⟩, hSynced, hSame⟩
  rcases tokenItem_covers tok span with ⟨hCovers, hSpan⟩
  have hMoved : Grows 0 d { d₁ with pos := span.stop } :=
    ⟨hSame.grows.queued, hSame.grows.source, hSame.grows.mode⟩
  have hMode : ({ d₁ with pos := span.stop } : DriverCore).triviaMode =
      true := by
    rw [hMoved.mode]
    exact hPlaced.mode
  have hEnd : d₁.coveredEnd = span.start := by
    rw [hSame.covered, hPlaced.active hActive, hStart]
  unfold DriverCore.lexHere
  rw [hToken]
  dsimp only
  rw [if_pos hMode]
  refine ⟨_, rfl, ?_⟩
  have hNonempty : (DriverCore.tokenItem tok span).span.start <
      (DriverCore.tokenItem tok span).span.stop := by
    rw [hSpan, hStart]
    exact hLt
  have hBehind : ({ d₁ with pos := span.stop } : DriverCore).coveredEnd
      ≤ (DriverCore.tokenItem tok span).span.start := by
    rw [hSpan]
    exact Nat.le_of_eq hEnd
  rcases DriverCore.cover_grows _ hMode hCovers hBehind hNonempty with
    ⟨hGrows, hCovered⟩
  rcases DriverCore.cover_fields (d := { d₁ with pos := span.stop })
    (DriverCore.tokenItem tok span) with ⟨hPos, hStack, hLexer, hEof⟩
  rw [hSpan] at hCovered
  have hAll := hMoved.trans hGrows
  have hOpen := hPlaced.not_ended hMore
  refine ⟨⟨?_, ?_, ?_, ?_, ?_, ?_⟩, hAll.weaken (by decide), ?_, ?_, ?_⟩
  · rw [hAll.mode]
    exact hPlaced.mode
  · apply Nat.le_of_eq
    rw [hCovered, hPos]
  · rw [hPos, hAll.source]
    exact hWithin
  · intro _
    rw [hCovered, hPos]
  · intro state hSome
    rw [hLexer] at hSome
    rw [hAll.source]
    exact hSynced state hSome
  · intro hDone
    rw [hEof] at hDone
    dsimp only at hDone
    rw [hSame.ended, hOpen] at hDone
    cases hDone
  · rw [hPos]
    exact hLt
  · rw [hStack]
    dsimp only
    rw [hSame.stack]
    exact Nat.le_succ _
  · rw [hEof]
    exact hSame.ended

/- The next line starts behind this one, in the source. -/
theorem advanceToNextLineStart_pos
    (hMore : d.pos < d.source.length) :
    d.pos < d.advanceToNextLineStart.pos ∧
      d.advanceToNextLineStart.pos ≤ d.source.length := by
  unfold DriverCore.advanceToNextLineStart
  dsimp only
  have hEnd : d.pos ≤ lineEndAt d.source d.pos := le_scanWhile _ _ _ _
  split
  · next hBreak =>
      have hLast := lt_length_of_getElem? hBreak.2
      constructor
      · omega
      · omega
  · split
    · constructor
      · omega
      · omega
    · have hTo : lineEndAt d.source d.pos ≤ d.source.length :=
        scanWhile_le (Nat.le_of_lt hMore)
      constructor
      · omega
      · exact hTo

theorem deadLine_advances
    (hPlaced : Placed d)
    (hMore : d.pos < d.source.length)
    (hDead : ¬ d.currentlyActive = true) :
    Advances d d.advanceToNextLineStart.invalidateLexer := by
  rcases advanceToNextLineStart_pos hMore with ⟨hFurther, hWithin⟩
  apply advances_skipTo hPlaced (Grows.refl.weaken (Nat.zero_le 4)) rfl
    (Nat.le_succ _) hFurther hWithin
  · exact Nat.le_trans hPlaced.behind (Nat.le_of_lt hFurther)
  · intro hActive
    exact absurd hActive hDead

/- The end of the source closes the last gap. -/
theorem reachEof_placed
    (hPlaced : Placed d)
    (hEnd : d.source.length ≤ d.pos) :
    Placed d.reachEof ∧ Grows (d.stack.length + 1) d d.reachEof := by
  have hAt : d.pos = d.source.length :=
    Nat.le_antisymm hPlaced.within hEnd
  have hBegin : Grows 0 d { d with eofDone := true } :=
    Grows.same rfl rfl rfl rfl
  rcases @DriverCore.fillInactiveGap_grows { d with eofDone := true }
    hPlaced.mode d.source.length with ⟨hFill, hCovered⟩
  have hGap := @DriverCore.fillInactiveGap_fields
    { d with eofDone := true } d.source.length
  have hTo : max d.coveredEnd d.source.length = d.source.length := by
    apply Nat.max_eq_right
    rw [← hAt]
    exact hPlaced.behind
  rw [hTo] at hCovered
  have hCount : d.unclosed.length ≤ d.stack.length := by
    unfold DriverCore.unclosed
    apply Nat.le_of_eq
    rw [List.length_map, List.length_reverse]
  have hNone : ∀ item ∈ d.unclosed, item.coversSource = false := by
    intro item hMem
    unfold DriverCore.unclosed at hMem
    rcases List.mem_map.1 hMem with ⟨frame, -, rfl⟩
    rfl
  have hQueue := DriverCore.queue_grows
    (d := ({ d with eofDone := true } : DriverCore).fillInactiveGap
      d.source.length) hCount hNone
  have hQueued := (hBegin.trans hFill).trans hQueue
  have hReached : Grows (0 + 1 + d.stack.length) d d.reachEof :=
    ⟨hQueued.queued, hQueued.source, hQueued.mode⟩
  have hAll : Grows (d.stack.length + 1) d d.reachEof := by
    apply hReached.weaken
    omega
  refine ⟨⟨?_, ?_, ?_, ?_, ?_, ?_⟩, hAll⟩
  · rw [hAll.mode]
    exact hPlaced.mode
  · exact Nat.le_of_eq (hCovered.trans (hAt.symm.trans hGap.1.symm))
  · rw [hAll.source]
    exact Nat.le_of_eq (hGap.1.trans hAt)
  · intro _
    exact hCovered.trans (hAt.symm.trans hGap.1.symm)
  · intro state hSome
    rw [hAll.source]
    exact hPlaced.lexer state (hGap.2.2.1.symm.trans hSome)
  · intro _
    rw [hAll.source]
    exact hCovered

end Reading

/- What is emitted and queued tiles the source that is covered. -/
structure Covered
    (c : Config) :
    Prop where
  placed : Placed c.core
  tiles : CoverTiles 0 (c.emitted ++ c.core.pending) c.core.coveredEnd
  finished : c.finished = true →
    c.core.eofDone = true ∧ c.core.pending = []

/- How many turns are left at most. -/
def turnsLeft
    (c : Config) :
    Nat :=
  c.core.pending.length + c.core.stack.length +
    6 * (c.core.source.length - c.core.pos) +
    (if c.core.eofDone then 0 else 2) + (if c.finished then 0 else 1)

namespace Covered

variable {logos : Logos} {c c' : Config} {d' : DriverCore}

theorem initial
    (source : List UInt8)
    (symbols : List UInt8 → Bool) :
    Covered (.initial source symbols true) where
  placed := ⟨rfl, Nat.le_refl 0, Nat.zero_le _, fun _ => rfl, nofun,
    nofun⟩
  tiles := rfl
  finished := nofun

theorem grow
    (hInv : Covered c)
    (hMore : c.finished = false)
    (hPlaced : Placed d')
    (hGrows : Grows cost c.core d') :
    Covered ⟨d', c.emitted, c.finished⟩ := by
  rcases hGrows.queued with ⟨items, hItems, -, hTiles⟩
  refine ⟨hPlaced, ?_, ?_⟩
  · dsimp only
    rw [hItems, ← List.append_assoc]
    exact hInv.tiles.append hTiles
  · intro hDone
    rw [hMore] at hDone
    cases hDone

theorem advance
    (hInv : Covered c)
    (hMore : c.finished = false)
    (hEmpty : c.core.pending = [])
    (hAdvances : Advances c.core d') :
    Covered ⟨d', c.emitted, c.finished⟩ ∧
      turnsLeft ⟨d', c.emitted, c.finished⟩ < turnsLeft c := by
  refine ⟨hInv.grow hMore hAdvances.placed hAdvances.grows, ?_⟩
  rcases hAdvances.grows.queued with ⟨items, hItems, hCount, -⟩
  have hFurther := hAdvances.further
  have hDeeper := hAdvances.deeper
  have hWithin := hAdvances.placed.within
  rw [hAdvances.grows.source] at hWithin
  unfold turnsLeft
  dsimp only
  rw [hAdvances.ended, hAdvances.grows.source, hItems, hEmpty,
    List.nil_append, List.length_nil]
  omega

/- A turn keeps the invariant, and there are fewer left behind it. -/
theorem step
    (hTiles : logos.Tiles)
    (hInv : Covered c)
    (hMore : c.finished = false) :
    Covered (c.after (c.core.iterate logos)) ∧
      turnsLeft (c.after (c.core.iterate logos)) < turnsLeft c ∧
      (c.after (c.core.iterate logos)).core.source =
        c.core.source := by
  unfold DriverCore.iterate
  cases hPending : c.core.pending with
  | cons item rest =>
      refine ⟨⟨?_, ?_, ?_⟩, ?_, rfl⟩
      · have h := hInv.placed
        exact ⟨h.mode, h.behind, h.within, h.active, h.lexer, h.ended⟩
      · have hTiles' := hInv.tiles
        rw [hPending, List.append_cons] at hTiles'
        exact hTiles'
      · intro hDone
        exact absurd (hMore.symm.trans hDone) Bool.false_ne_true
      · unfold turnsLeft Config.after
        dsimp only
        rw [hPending, List.length_cons]
        omega
  | nil =>
      dsimp only
      unfold DriverCore.work
      cases hHere : c.core.directiveHere with
      | some result =>
          have hRange : InLine c.core.pos c.core.source.length
              (rangeOf result) := by
            unfold DriverCore.directiveHere at hHere
            split at hHere
            · exact recogniseDirective_range hHere
            · cases hHere
          have hAdvances := handleDirectiveResult_advances hInv.placed
            hRange
          rcases hInv.advance hMore hPending hAdvances with
            ⟨hInv', hLess⟩
          exact ⟨hInv', hLess, hAdvances.grows.source⟩
      | none =>
          dsimp only
          by_cases hEnd : c.core.source.length ≤ c.core.pos
          · rw [if_pos hEnd]
            by_cases hEof : c.core.eofDone = true
            · rw [if_pos hEof]
              refine ⟨⟨hInv.placed, hInv.tiles, ?_⟩, ?_, rfl⟩
              · intro _
                exact ⟨hEof, hPending⟩
              · unfold turnsLeft Config.after
                dsimp only
                rw [hMore, if_pos rfl, if_neg Bool.false_ne_true]
                omega
            · rw [if_neg hEof]
              rcases reachEof_placed hInv.placed hEnd with
                ⟨hPlaced, hGrows⟩
              refine ⟨hInv.grow hMore hPlaced hGrows, ?_,
                hGrows.source⟩
              rcases hGrows.queued with ⟨items, hItems, hCount, -⟩
              unfold turnsLeft Config.after
              dsimp only
              rw [hGrows.source, hItems, hPending, List.nil_append,
                if_neg hEof, List.length_nil]
              have hStack : c.core.reachEof.stack.length = 0 := rfl
              have hFields := @DriverCore.fillInactiveGap_fields
                { c.core with eofDone := true } c.core.source.length
              have hPos : c.core.reachEof.pos = c.core.pos :=
                hFields.1
              have hDone : c.core.reachEof.eofDone = true :=
                hFields.2.2.2
              rw [hStack, hPos, hDone, if_pos rfl]
              omega
          · rw [if_neg hEnd]
            have hBefore : c.core.pos < c.core.source.length :=
              Nat.lt_of_not_le hEnd
            by_cases hActive : c.core.currentlyActive = true
            · rw [if_pos hActive]
              rcases lexHere_advances hTiles hInv.placed hBefore
                hActive with ⟨d', hLex, hAdvances⟩
              rw [hLex]
              rcases hInv.advance hMore hPending hAdvances with
                ⟨hInv', hLess⟩
              exact ⟨hInv', hLess, hAdvances.grows.source⟩
            · rw [if_neg hActive]
              have hAdvances := deadLine_advances hInv.placed hBefore
                hActive
              rcases hInv.advance hMore hPending hAdvances with
                ⟨hInv', hLess⟩
              exact ⟨hInv', hLess, hAdvances.grows.source⟩

end Covered

/- The spans of the full-trivia stream partition the source. -/
theorem lex_full_trivia_lossless
    (logos : Logos)
    (hTiles : logos.Tiles)
    (source : List UInt8)
    (symbols : List UInt8 → Bool) :
    ∃ n c, (driverMachine logos).runFor n
        (.initial source symbols true) = .ok c ∧
      c.finished = true ∧
      Tiles (fun item => item.span.start) (fun item => item.span.stop) 0
        (c.emitted.filter CoreItem.coversSource) source.length := by
  have hStep : ∀ c c', Covered c ∧ c.core.source = source →
      (driverMachine logos).done c = false →
      (driverMachine logos).step c = .ok c' →
      (Covered c' ∧ c'.core.source = source) ∧
        turnsLeft c' < turnsLeft c := by
    intro c c' hInv hMore hNext
    cases hNext
    rcases Covered.step hTiles hInv.1 hMore with ⟨hInv', hLess, hSame⟩
    exact ⟨⟨hInv', hSame.trans hInv.2⟩, hLess⟩
  have hInitial : Covered (.initial source symbols true) ∧
      (Config.initial source symbols true).core.source = source :=
    ⟨Covered.initial source symbols, rfl⟩
  rcases Machine.runFor_finishes hStep hInitial with
    ⟨n, c, hRun, hDone, hInv, hSource⟩
  refine ⟨n, c, hRun, hDone, ?_⟩
  have hAll := hInv.tiles
  rcases hInv.finished hDone with ⟨hEof, hEmpty⟩
  rw [hEmpty, List.append_nil, hInv.placed.ended hEof, hSource] at hAll
  exact hAll

/- A lexer that knows line feeds only. -/
def lineFeeds : Logos :=
  fun text pos =>
    if pos < text.length then
      some (if text[pos]? = some (byte '\n') then
          .ok .Newline
        else
          .error .Unknown, ⟨pos, pos + 1⟩)
    else
      none

theorem lineFeeds_tiles : lineFeeds.Tiles where
  more := by
    intro text pos hLt
    refine ⟨_, pos + 1, if_pos hLt, Nat.lt_succ_self pos, hLt⟩
  last := by
    intro text pos hLe
    exact if_neg (Nat.not_lt_of_le hLe)

/- A dead branch in front of a line feed. -/
theorem lex_full_trivia_lossless_dead_branch :
    ∃ n c, (driverMachine lineFeeds).runFor n
        (.initial ("#if A\nx\n#endif\n".toList.map byte)
          (fun _ => false) true) = .ok c ∧
      c.finished = true ∧
      Tiles (fun item => item.span.start) (fun item => item.span.stop) 0
        (c.emitted.filter CoreItem.coversSource) 15 :=
  lex_full_trivia_lossless lineFeeds lineFeeds_tiles
    ("#if A\nx\n#endif\n".toList.map byte) (fun _ => false)

end Directives

end Borzoi
