import Mathlib.Data.List.TakeWhile
import Borzoi.Directives.Conditionals

/-
  The remapping of lines by `#line` directives.

  The driver counts line breaks from one active `#line` to the next.
  Its count is the line index of the directive in the whole source, so
  the store is ascending, and a query finds the last directive in front
  of the line it asks about.

  Main declarations:
    * `LineDirectiveStore.remap`
    * `LineReads`
    * `LinesKept`
    * `line_store_remaps`
-/

namespace Borzoi

namespace Directives

open Program Lexer

/-
  A directive in line `line` gives the line behind it the 1-based
  number `number`, and the lines behind that the numbers behind it.
-/
def assertedLine
    (line number generatedLine : Nat) :
    Nat :=
  min (generatedLine + number - line - 2) (2 ^ 32 - 1)

section Query

variable {store : LineDirectiveStore} {generatedLine : Nat}

theorem takeWhile_eq_filter
    {ds : List LineDirective}
    (hAscending : ds.Pairwise (fun a b => a.generatedLine < b.generatedLine)) :
    ds.takeWhile (fun d => d.generatedLine < generatedLine) =
      ds.filter (fun d => d.generatedLine < generatedLine) := by
  induction ds with
  | nil => rfl
  | cons d ds ih =>
      rw [List.pairwise_cons] at hAscending
      rcases hAscending with ⟨hBelow, hRest⟩
      by_cases hLt : d.generatedLine < generatedLine
      · rw [List.takeWhile_cons_of_pos (by simpa using hLt),
          List.filter_cons_of_pos (by simpa using hLt), ih hRest]
      · rw [List.takeWhile_cons_of_neg (by simpa using hLt), eq_comm,
          List.filter_eq_nil_iff]
        intro d' hMem
        rw [decide_eq_true_eq]
        rcases List.mem_cons.1 hMem with rfl | hLater
        · exact hLt
        · have hAbove := hBelow d' hLater
          omega

theorem checkedI64_small
    {x : Int}
    (hLow : -2 ^ 63 ≤ x)
    (hHigh : x < 2 ^ 63) :
    checkedI64 x = .ok x :=
  if_pos ⟨hLow, hHigh⟩

/- The query finds the last directive in front of the line. -/
theorem remap_eq_last
    (hAscending : store.directives.Pairwise
      (fun a b => a.generatedLine < b.generatedLine))
    (hFits : ∀ d ∈ store.directives,
      d.generatedLine < 2 ^ 32 ∧ d.virtualLine < 2 ^ 32)
    (hLine : generatedLine < 2 ^ 32) :
    store.remap generatedLine =
      .ok ((store.directives.filter
        (fun d => d.generatedLine < generatedLine)).getLast?.map
          fun d => ⟨d.file,
            assertedLine d.generatedLine d.virtualLine generatedLine⟩) := by
  rw [← takeWhile_eq_filter hAscending]
  have hSplit := List.takeWhile_append_dropWhile
    (p := fun d : LineDirective => decide (d.generatedLine < generatedLine))
    (l := store.directives)
  have hFront : ∀ d ∈ store.directives.takeWhile
      (fun d => d.generatedLine < generatedLine),
      d.generatedLine < generatedLine ∧ d ∈ store.directives := by
    intro d hMem
    have hHolds := List.mem_takeWhile_imp hMem
    exact ⟨of_decide_eq_true hHolds, (List.takeWhile_sublist _).subset hMem⟩
  unfold LineDirectiveStore.remap partitionPoint
  dsimp only
  generalize store.directives.takeWhile
    (fun d => d.generatedLine < generatedLine) = front at hSplit hFront ⊢
  rcases List.eq_nil_or_concat front with rfl | ⟨before, d, rfl⟩
  · rfl
  · rw [List.concat_eq_append] at hSplit hFront ⊢
    have hLast : store.directives[before.length]? = some d := by
      rw [← hSplit, List.append_assoc,
        List.getElem?_append_right (Nat.le_refl _), Nat.sub_self]
      rfl
    have hMem : d ∈ before ++ [d] := by
      simp
    rcases hFront d hMem with ⟨hLt, hStored⟩
    rcases hFits d hStored with ⟨hGenerated, hVirtual⟩
    rw [List.length_append, List.length_singleton]
    dsimp only
    rw [hLast]
    dsimp only
    rw [checkedI64_small (by omega) (by omega)]
    dsimp only [bind, Except.bind]
    rw [checkedI64_small (by omega) (by omega)]
    dsimp only
    rw [checkedI64_small (by omega) (by omega), List.getLast?_concat]
    change Except.ok (some _) = Except.ok (some _)
    unfold assertedLine
    congr 3
    omega

end Query

variable {pos : Nat} {b : UInt8} {p : UInt8 → Bool}

section Counting

variable {source : List UInt8}

/- A text may be cut anywhere but in front of a `\n`. -/
theorem lineBreaks_append
    (front : List UInt8)
    {back : List UInt8}
    (hWhole : back.head? ≠ some (byte '\n')) :
    lineBreaks (front ++ back) = lineBreaks front + lineBreaks back := by
  induction front with
  | nil =>
      rw [List.nil_append, lineBreaks, Nat.zero_add]
  | cons b front ih =>
      rw [List.cons_append, lineBreaks, lineBreaks, ih]
      have hHead : (front ++ back).head? = some (byte '\n') ↔
          front.head? = some (byte '\n') := by
        cases front with
        | nil =>
            constructor
            · intro hEq
              exact absurd hEq hWhole
            · intro hEq
              cases hEq
        | cons c rest => exact Iff.rfl
      by_cases hFeed : b = byte '\n'
      · rw [if_pos hFeed, if_pos hFeed]
        omega
      · rw [if_neg hFeed, if_neg hFeed]
        by_cases hReturn : b = byte '\r'
        · rw [if_pos hReturn, if_pos hReturn]
          by_cases hNext : front.head? = some (byte '\n')
          · rw [if_pos hNext, if_pos (hHead.2 hNext)]
          · rw [if_neg hNext, if_neg (mt hHead.1 hNext)]
            omega
        · rw [if_neg hReturn, if_neg hReturn]

theorem lineBreaks_pos
    (front : List UInt8)
    (hBreak : isLineBreak b = true) :
    0 < lineBreaks (front ++ [b]) := by
  induction front with
  | nil =>
      rw [List.nil_append, lineBreaks]
      unfold isLineBreak at hBreak
      rw [Bool.or_eq_true, beq_iff_eq, beq_iff_eq] at hBreak
      split
      · exact Nat.succ_pos _
      · next hFeed =>
          rw [if_pos (hBreak.resolve_left hFeed), if_neg (by simp)]
          exact Nat.succ_pos _
  | cons c front ih =>
      rw [List.cons_append, lineBreaks]
      split
      · exact Nat.succ_pos _
      · split
        · split
          · exact ih
          · exact Nat.succ_pos _
        · exact ih

/- No place inside a `\r\n`. -/
def WholeBreaks
    (source : List UInt8)
    (offset : Nat) :
    Prop :=
  offset = 0 ∨ source[offset]? ≠ some (byte '\n')

variable {from_ to_ : Nat}

theorem take_slice
    (hLe : from_ ≤ to_) :
    source.take to_ = source.take from_ ++ slice source from_ to_ := by
  unfold slice
  rw [← List.take_add, Nat.add_sub_cancel' hLe]

/- A count from scratch goes on from a place between two breaks. -/
theorem lineIndex_stretch
    (hWhole : WholeBreaks source from_)
    (hLe : from_ ≤ to_) :
    lineIndex source to_ =
      lineIndex source from_ + lineBreaks (slice source from_ to_) := by
  unfold lineIndex
  rw [take_slice hLe]
  rcases hWhole with rfl | hWhole
  · rw [List.take_zero, List.nil_append, lineBreaks, Nat.zero_add]
  · apply lineBreaks_append
    intro hHead
    apply hWhole
    unfold slice at hHead
    rw [List.head?_take, List.head?_drop] at hHead
    split at hHead
    · cases hHead
    · exact hHead

/- A stretch that ends with a line break has one. -/
theorem lineBreaks_slice_pos
    (hLt : from_ < to_)
    (hBreak : source[to_ - 1]?.any isLineBreak = true) :
    0 < lineBreaks (slice source from_ to_) := by
  cases hByte : source[to_ - 1]? with
  | none =>
      rw [hByte] at hBreak
      cases hBreak
  | some b =>
      rw [hByte] at hBreak
      have hSlice : slice source from_ to_ =
          slice source from_ (to_ - 1) ++ [b] := by
        unfold slice
        have hLength : to_ - from_ = to_ - 1 - from_ + 1 := by
          omega
        have hGet : (source.drop from_)[to_ - 1 - from_]? = some b := by
          rw [List.getElem?_drop]
          have hPlace : from_ + (to_ - 1 - from_) = to_ - 1 := by
            omega
          rw [hPlace, hByte]
        rw [hLength, List.take_add_one, hGet]
        rfl
      rw [hSlice]
      exact lineBreaks_pos _ hBreak

theorem lineIndex_le
    {offset : Nat}
    (hWhole : WholeBreaks source offset)
    (hIn : offset ≤ source.length) :
    lineIndex source offset ≤ lineBreaks source := by
  have hAll := lineIndex_stretch hWhole hIn
  unfold lineIndex at hAll ⊢
  rw [List.take_length] at hAll
  omega

end Counting

section Places

variable {source : List UInt8} {lineStart : Nat}
variable {result : Except DirectiveError Recognised}

theorem lt_scanWhile
    {pos stop : Nat}
    (hLt : pos < scanWhile p source pos stop) :
    ∃ b, source[pos]? = some b ∧ p b = true := by
  unfold scanWhile at hLt
  cases hText : (source.drop pos).take (stop - pos) with
  | nil =>
      rw [hText] at hLt
      exact absurd hLt (Nat.lt_irrefl _)
  | cons b rest =>
      have hHead : ((source.drop pos).take (stop - pos)).head? = some b := by
        rw [hText]
        rfl
      rw [List.head?_take, List.head?_drop] at hHead
      split at hHead
      · cases hHead
      · refine ⟨b, hHead, ?_⟩
        by_contra hNot
        rw [hText, List.takeWhile_cons_of_neg hNot] at hLt
        exact absurd hLt (Nat.lt_irrefl _)

/- A directive stands at the start of a line that is not empty. -/
theorem recogniseDirective_place
    (hSome : recogniseDirective source lineStart = some result) :
    followsLineBreak source lineStart = true ∧
      WholeBreaks source lineStart := by
  unfold recogniseDirective at hSome
  split at hSome
  · cases hSome
  · split at hSome
    · cases hSome
    · next hFollows =>
        refine ⟨Bool.of_not_eq_false hFollows, .inr ?_⟩
        dsimp only at hSome
        split at hSome
        · cases hSome
        · next hHash =>
            rw [not_or, Nat.not_le] at hHash
            have hSkip : lineStart ≤ skipBom source lineStart
                (lineEndAt source lineStart) := le_skipBom
            have hStart := le_scanWhile isBlank source
              (skipBom source lineStart (lineEndAt source lineStart))
              (lineEndAt source lineStart)
            have hLine : lineStart < lineEndAt source lineStart := by
              omega
            rcases lt_scanWhile hLine with ⟨b, hByte, hOther⟩
            intro hFeed
            rw [hByte] at hFeed
            rw [Option.some.inj hFeed] at hOther
            exact absurd hOther (by decide)

theorem parseLineNumber_lt
    (digits : List UInt8) :
    parseLineNumber digits < 2 ^ 31 := by
  unfold parseLineNumber
  dsimp only
  split
  · next hLt => exact hLt
  · exact Nat.two_pow_pos 31

/- The number of a `#line` directive is a non-negative `i32`. -/
def SmallNumber
    (result : Except DirectiveError Recognised) :
    Prop :=
  ∀ number file range, result = .ok ⟨.Line number file, range⟩ →
    number < 2 ^ 31

variable {keyword : DirectiveKind} {lineEnd : Nat}

theorem recogniseLineNumber_small
    (hSome : recogniseLineNumber source lineStart lineEnd pos =
      some result) :
    SmallNumber result := by
  unfold recogniseLineNumber at hSome
  dsimp only at hSome
  split at hSome
  · cases hSome
  · split at hSome
    · cases hSome
    · intro number file range hResult
      cases hSome
      cases hResult
      exact parseLineNumber_lt _

theorem recogniseCondition_small
    {directive : Expr → Directive}
    (hOther : ∀ e number file, directive e ≠ .Line number file)
    (hSome : recogniseCondition source lineStart lineEnd pos keyword
      directive = some result) :
    SmallNumber result := by
  unfold recogniseCondition at hSome
  dsimp only at hSome
  split at hSome
  · intro number file range hResult
    cases hSome
    cases hResult
  · split at hSome
    · next expr _ =>
        intro number file range hResult
        cases hSome
        rw [Except.ok.injEq, Recognised.mk.injEq] at hResult
        exact absurd hResult.1 (hOther expr number file)
    · intro number file range hResult
      cases hSome
      cases hResult

theorem recogniseBare_small
    {directive : Directive}
    (hOther : ∀ number file, directive ≠ .Line number file)
    (hSome : recogniseBare source lineStart lineEnd pos keyword
      directive = some result) :
    SmallNumber result := by
  unfold recogniseBare at hSome
  dsimp only at hSome
  split at hSome
  · intro number file range hResult
    cases hSome
    rw [Except.ok.injEq, Recognised.mk.injEq] at hResult
    exact absurd hResult.1 (hOther number file)
  · intro number file range hResult
    cases hSome
    cases hResult

theorem recogniseDirective_small
    (hSome : recogniseDirective source lineStart = some result) :
    SmallNumber result := by
  unfold recogniseDirective at hSome
  split at hSome
  · cases hSome
  split at hSome
  · cases hSome
  dsimp only at hSome
  split at hSome
  · cases hSome
  unfold recogniseKeyword at hSome
  dsimp only at hSome
  split at hSome
  · intro number file range hResult
    cases hSome
    cases hResult
  split at hSome
  · intro number file range hResult
    cases hSome
    cases hResult
  split at hSome
  · exact recogniseLineNumber_small hSome
  split at hSome
  · cases hSome
  split at hSome
  · exact recogniseCondition_small (by simp) hSome
  split at hSome
  · exact recogniseCondition_small (by simp) hSome
  split at hSome
  · exact recogniseBare_small (by simp) hSome
  split at hSome
  · exact recogniseBare_small (by simp) hSome
  split at hSome
  · split at hSome
    · cases hSome
    · exact recogniseLineNumber_small hSome
  · cases hSome

end Places

------------------------------------------------------------
-- Turns
------------------------------------------------------------

/- A `#line` directive that takes effect. -/
structure LineRead where
  offset : Nat
  number : Nat
  file : Option (List UInt8)
  deriving DecidableEq, Repr

/- The active `#line` directive that the next turn handles. -/
def DriverCore.lineHere
    (d : DriverCore) :
    Option LineRead :=
  match d.pending, d.directiveHere with
  | [], some (.ok r) =>
      match r.directive with
      | .Line number file =>
          if d.currentlyActive then
            some ⟨r.range.start, number, file⟩
          else
            none
      | _ => none
  | _, _ => none

/- Where the driver stands, in either mode. -/
structure Standing
    (d : DriverCore) :
    Prop where
  within : d.pos ≤ d.source.length
  lexer : ∀ state, d.lexer = some state → Synced d.source state

/- The line bookkeeping is as before. -/
structure SameLines
    (d d' : DriverCore) :
    Prop where
  source : d'.source = d.source
  lines : d'.lineDirectives = d.lineDirectives
  scanOffset : d'.lineScanOffset = d.lineScanOffset
  scanLine : d'.lineScanLine = d.lineScanLine

/- A turn that goes on in the source. -/
structure Onward
    (d d' : DriverCore) :
    Prop where
  standing : Standing d'
  forward : d.pos ≤ d'.pos

variable {read : LineRead}

section Turns

variable {logos : Logos} {d d₁ : DriverCore}

theorem Undisturbed.sameLines
    (hSame : Undisturbed d d₁) :
    SameLines d d₁ :=
  ⟨hSame.source, hSame.lines, hSame.scanOffset, hSame.scanLine⟩

theorem onward_skipTo
    (hSource : d₁.source = d.source)
    (hForward : d.pos ≤ pos)
    (hWithin : pos ≤ d.source.length) :
    Onward d (d₁.skipTo pos) := by
  rcases @invalidateLexer_fields { d₁ with pos := pos } with
    ⟨hLexer, hPos, -, -, -, hSame⟩
  have hSource' : (d₁.skipTo pos).source = d.source :=
    hSame.source.trans hSource
  refine ⟨⟨?_, ?_⟩, ?_⟩
  · rw [hSource']
    exact Nat.le_trans (Nat.le_of_eq hPos) hWithin
  · intro state hSome
    have hNone : (d₁.skipTo pos).lexer = none := hLexer
    rw [hNone] at hSome
    cases hSome
  · exact Nat.le_trans hForward (Nat.le_of_eq hPos.symm)

/- A conditional directive leaves the line bookkeeping alone. -/
theorem handleCondition_lines
    (c : DriverCore.Condition) :
    SameLines d (d.handleCondition c) ∧
      (d.pos ≤ c.range.stop → c.range.stop ≤ d.source.length →
        Onward d (d.handleCondition c)) := by
  let parentActive := parentActiveFor d.stack c.kind
  let reported := ((d.noteElif c).markCondition c parentActive).reportBody
    c.bodyErr parentActive
  have hReported : Undisturbed d reported :=
    ((Undisturbed.noteElif c).trans
      (Undisturbed.markCondition c parentActive)).trans
      (Undisturbed.reportBody c.bodyErr parentActive)
  have hApplied : SameLines d (reported.applyCondition c parentActive) := by
    have hLines := hReported.sameLines
    unfold DriverCore.applyCondition
    split
    · exact hLines
    · exact ⟨hLines.source, hLines.lines, hLines.scanOffset, hLines.scanLine⟩
  constructor
  · have hSkip : Undisturbed (reported.applyCondition c parentActive)
        ((reported.applyCondition c parentActive).skipTo c.range.stop) :=
      Undisturbed.skipTo _
    exact ⟨hSkip.source.trans hApplied.source,
      hSkip.lines.trans hApplied.lines,
      hSkip.scanOffset.trans hApplied.scanOffset,
      hSkip.scanLine.trans hApplied.scanLine⟩
  · intro hForward hWithin
    exact onward_skipTo hApplied.source hForward hWithin

/- A `#line` directive is recorded with the count up to its place. -/
structure Records
    (d d' : DriverCore)
    (read : LineRead) :
    Prop where
  source : d'.source = d.source
  scanOffset : d'.lineScanOffset = min read.offset d.source.length
  scanLine : d'.lineScanLine = d.lineScanLine +
    lineBreaks (slice d.source d.lineScanOffset
      (min read.offset d.source.length))
  lines : d'.lineDirectives.directives = d.lineDirectives.directives ++
    [⟨d'.lineScanLine, read.number, read.file⟩]

theorem Records.undisturbed
    {d₂ : DriverCore}
    (hRecords : Records d d₁ read)
    (hSame : Undisturbed d₁ d₂) :
    Records d d₂ read where
  source := hSame.source.trans hRecords.source
  scanOffset := hSame.scanOffset.trans hRecords.scanOffset
  scanLine := hSame.scanLine.trans hRecords.scanLine
  lines := by
    rw [hSame.lines, hSame.scanLine]
    exact hRecords.lines

/- What follows the record of an active directive. -/
theorem handleTrivia_undisturbed
    (r : Recognised)
    (hActive : d.currentlyActive = true) :
    Undisturbed (d.recordLine r) (d.handleTrivia r) := by
  unfold DriverCore.handleTrivia
  rw [if_pos hActive]
  dsimp only
  refine Undisturbed.trans ?_ (Undisturbed.skipTo _)
  split
  · split
    · exact Undisturbed.cover _
    · exact Undisturbed.refl
  · exact Undisturbed.refl

variable {r : Recognised}

theorem recordLine_records
    {number : Nat}
    {file : Option (List UInt8)}
    (hLine : r.directive = .Line number file) :
    Records d (d.recordLine r) ⟨r.range.start, number, file⟩ := by
  unfold DriverCore.recordLine DriverCore.generatedLineAt
  rw [hLine]
  refine ⟨rfl, rfl, ?_, rfl⟩
  dsimp only
  unfold lineIndex
  rw [List.take_length]

theorem handleTrivia_pos
    (r : Recognised) :
    (d.handleTrivia r).pos = r.range.stop := by
  unfold DriverCore.handleTrivia
  split
  · exact invalidateLexer_fields.2.1
  · exact invalidateLexer_fields.2.1

theorem handleTrivia_dead
    (hDead : ¬ d.currentlyActive = true) :
    SameLines d (d.handleTrivia r) := by
  unfold DriverCore.handleTrivia
  rw [if_neg hDead]
  exact (Undisturbed.skipTo _).sameLines

theorem handleTrivia_sameLines
    (hOther : ∀ number file, r.directive ≠ .Line number file) :
    SameLines d (d.handleTrivia r) := by
  by_cases hActive : d.currentlyActive = true
  · have hRecord : d.recordLine r = d := by
      unfold DriverCore.recordLine
      split
      · next number file hLine => exact absurd hLine (hOther number file)
      · rfl
    have hAfter := handleTrivia_undisturbed r hActive
    rw [hRecord] at hAfter
    exact hAfter.sameLines
  · exact handleTrivia_dead hActive

theorem handleTrivia_onward
    (hForward : d.pos ≤ r.range.stop)
    (hWithin : r.range.stop ≤ d.source.length) :
    Onward d (d.handleTrivia r) := by
  unfold DriverCore.handleTrivia
  split
  · dsimp only
    have hRecorded : (d.recordLine r).source = d.source :=
      (recordLine_fields r).1.source
    split
    · split
      · apply onward_skipTo _ hForward hWithin
        exact (Undisturbed.cover _).source.trans hRecorded
      · exact onward_skipTo hRecorded hForward hWithin
    · exact onward_skipTo hRecorded hForward hWithin
  · exact onward_skipTo rfl hForward hWithin

theorem lexHere_onward
    (hTiles : logos.Tiles)
    (hStanding : Standing d)
    (hMore : d.pos < d.source.length) :
    Onward d (d.lexHere logos).2 := by
  rcases nextLogosToken_steps hTiles hStanding.lexer hMore with
    ⟨tok, span, d₁, hToken, ⟨hStart, hLt, hWithin⟩, hSynced, hSame⟩
  have hSource : d₁.source = d.source := hSame.grows.source
  have hMoved : Onward d { d₁ with pos := span.stop } := by
    refine ⟨⟨?_, ?_⟩, Nat.le_of_lt hLt⟩
    · exact Nat.le_trans hWithin (Nat.le_of_eq (congrArg _ hSource.symm))
    · intro state hSome
      dsimp only
      rw [hSource]
      exact hSynced state hSome
  unfold DriverCore.lexHere
  rw [hToken]
  dsimp only
  split
  · rcases @DriverCore.cover_fields { d₁ with pos := span.stop }
      (DriverCore.tokenItem tok span) with ⟨hPos, -, hLexer, -⟩
    have hCovered := @Undisturbed.cover { d₁ with pos := span.stop }
      (DriverCore.tokenItem tok span)
    refine ⟨⟨?_, ?_⟩, ?_⟩
    · rw [hPos, hCovered.source]
      exact hMoved.standing.within
    · intro state hSome
      rw [hCovered.source]
      exact hMoved.standing.lexer state (hLexer.symm.trans hSome)
    · rw [hPos]
      exact hMoved.forward
  · exact hMoved

/- Every turn goes on in the source. -/
theorem iterate_onward
    (hTiles : logos.Tiles)
    (hStanding : Standing d) :
    Onward d (d.iterate logos).2 := by
  have hStay : ∀ d₁ : DriverCore, d₁.pos = d.pos → d₁.source = d.source →
      d₁.lexer = d.lexer → Onward d d₁ := by
    intro d₁ hPos hSource hLexer
    refine ⟨⟨?_, ?_⟩, Nat.le_of_eq hPos.symm⟩
    · rw [hPos, hSource]
      exact hStanding.within
    · intro state hSome
      rw [hSource]
      exact hStanding.lexer state (hLexer.symm.trans hSome)
  unfold DriverCore.iterate
  split
  · exact hStay _ rfl rfl rfl
  · unfold DriverCore.work
    split
    · next result hHere =>
        unfold DriverCore.directiveHere at hHere
        split at hHere
        · rcases recogniseDirective_range hHere with ⟨_, hLt, hWithin⟩
          unfold DriverCore.handleDirectiveResult
          split
          · next r =>
              split
              · exact handleTrivia_onward (Nat.le_of_lt hLt) hWithin
              · exact (handleCondition_lines _).2 (Nat.le_of_lt hLt) hWithin
          · next e =>
              exact (handleCondition_lines _).2 (Nat.le_of_lt hLt) hWithin
        · cases hHere
    · split
      · split
        · exact hStay _ rfl rfl rfl
        · rcases @DriverCore.fillInactiveGap_fields
            { d with eofDone := true } d.source.length with
            ⟨hPos, -, hLexer, -⟩
          have hFilled := @Undisturbed.fillInactiveGap
            { d with eofDone := true } d.source.length
          exact hStay _ hPos hFilled.source hLexer
      · next hNotEnd =>
          have hMore : d.pos < d.source.length := Nat.lt_of_not_le hNotEnd
          split
          · exact lexHere_onward hTiles hStanding hMore
          · rcases advanceToNextLineStart_pos hMore with ⟨hForward, hWithin⟩
            exact onward_skipTo rfl (Nat.le_of_lt hForward) hWithin

/- The turn that handles an active `#line` directive. -/
structure Reads
    (d d' : DriverCore)
    (read : LineRead) :
    Prop where
  offset : read.offset = d.pos
  within : read.offset ≤ d.source.length
  follows : followsLineBreak d.source read.offset = true
  whole : WholeBreaks d.source read.offset
  number : read.number < 2 ^ 31
  records : Records d d' read
  further : d.pos < d'.pos

/- A turn reads an active `#line` directive or leaves the lines alone. -/
theorem iterate_lines
    (logos : Logos)
    (hStanding : Standing d) :
    (d.lineHere = none ∧ SameLines d (d.iterate logos).2) ∨
      ∃ read, d.lineHere = some read ∧ Reads d (d.iterate logos).2 read := by
  unfold DriverCore.lineHere DriverCore.iterate
  cases hPending : d.pending with
  | cons item rest =>
      exact .inl ⟨rfl, ⟨rfl, rfl, rfl, rfl⟩⟩
  | nil =>
      dsimp only
      unfold DriverCore.work
      cases hHere : d.directiveHere with
      | none =>
          left
          refine ⟨rfl, ?_⟩
          dsimp only
          split
          · split
            · exact Undisturbed.refl.sameLines
            · have hFilled := @Undisturbed.fillInactiveGap
                { d with eofDone := true } d.source.length
              exact ⟨hFilled.source, hFilled.lines, hFilled.scanOffset,
                hFilled.scanLine⟩
          · split
            · exact (Undisturbed.lexHere logos).sameLines
            · exact Undisturbed.deadLine.sameLines
      | some result =>
          have hRecognised : recogniseDirective d.source d.pos =
              some result := by
            unfold DriverCore.directiveHere at hHere
            split at hHere
            · exact hHere
            · cases hHere
          rcases recogniseDirective_range hRecognised with
            ⟨hStart, hLt, hWithin⟩
          rcases recogniseDirective_place hRecognised with
            ⟨hFollows, hWhole⟩
          have hSmall := recogniseDirective_small hRecognised
          unfold DriverCore.handleDirectiveResult
          cases result with
          | error e =>
              exact .inl ⟨rfl, (handleCondition_lines _).1⟩
          | ok r =>
              rcases r with ⟨directive, start, stop⟩
              have hAt : start = d.pos := hStart
              subst hAt
              by_cases hLine : ∃ number file, directive = .Line number file
              · rcases hLine with ⟨number, file, rfl⟩
                dsimp only [Directive.kind]
                by_cases hActive : d.currentlyActive = true
                · right
                  rw [if_pos hActive]
                  refine ⟨_, rfl, ?_⟩
                  have hRecorded : Records d
                      (d.recordLine ⟨.Line number file, d.pos, stop⟩)
                      ⟨d.pos, number, file⟩ :=
                    recordLine_records rfl
                  constructor
                  · rfl
                  · exact hStanding.within
                  · exact hFollows
                  · exact hWhole
                  · exact hSmall number file ⟨d.pos, stop⟩ rfl
                  · exact hRecorded.undisturbed
                      (handleTrivia_undisturbed _ hActive)
                  · rw [handleTrivia_pos]
                    exact hLt
                · left
                  rw [if_neg hActive]
                  exact ⟨rfl, handleTrivia_dead hActive⟩
              · left
                have hOther : ∀ number file, directive ≠ .Line number file := by
                  intro number file hEq
                  exact hLine ⟨number, file, hEq⟩
                constructor
                · cases directive with
                  | Line number file => exact absurd rfl (hOther number file)
                  | _ => rfl
                · dsimp only
                  split
                  · exact handleTrivia_sameLines hOther
                  · exact (handleCondition_lines _).1

end Turns

------------------------------------------------------------
-- Runs
------------------------------------------------------------

/- A run with the active `#line` directives that it has handled. -/
inductive LineReads
    (logos : Logos) :
    Config → List LineRead → Config → Prop
  | start
      (c : Config) :
      LineReads logos c [] c
  | turn
      {c c₁ c₂ : Config}
      {seen : List LineRead}
      (hReads : LineReads logos c seen c₁)
      (hMore : c₁.finished = false)
      (hStep : (driverMachine logos).step c₁ = .ok c₂) :
      LineReads logos c (seen ++ c₁.core.lineHere.toList) c₂

/- The record of a directive, with its line in the whole source. -/
def LineRead.directive
    (source : List UInt8)
    (read : LineRead) :
    LineDirective :=
  ⟨lineIndex source read.offset, read.number, read.file⟩

/- The bookkeeping after the directives that were handled. -/
structure LinesKept
    (source : List UInt8)
    (seen : List LineRead)
    (d : DriverCore) :
    Prop where
  text : d.source = source
  standing : Standing d
  stored : d.lineDirectives.directives = seen.map (LineRead.directive source)
  ascending : seen.Pairwise fun a b =>
    lineIndex source a.offset < lineIndex source b.offset
  below : ∀ read ∈ seen, lineIndex source read.offset ≤ d.lineScanLine
  numbers : ∀ read ∈ seen, read.number < 2 ^ 31
  scanned : d.lineScanLine = lineIndex source d.lineScanOffset
  reached : d.lineScanOffset ≤ d.pos
  whole : WholeBreaks source d.lineScanOffset
  behind : seen ≠ [] → d.lineScanOffset < d.pos

section Runs

theorem Config.core_after
    (c : Config)
    (turn : Turn × DriverCore) :
    (c.after turn).core = turn.2 := by
  rcases turn with ⟨turn, d'⟩
  cases turn <;> rfl

variable {logos : Logos} {source : List UInt8} {seen : List LineRead}
variable {d d' : DriverCore}

theorem LinesKept.initial
    (symbols : List UInt8 → Bool)
    (triviaMode : Bool) :
    LinesKept source [] (.new source symbols triviaMode) where
  text := rfl
  standing := ⟨Nat.zero_le _, nofun⟩
  stored := rfl
  ascending := .nil
  below := nofun
  numbers := nofun
  scanned := rfl
  reached := Nat.le_refl 0
  whole := .inl rfl
  behind := fun hSome => absurd rfl hSome

theorem LinesKept.sameLines
    (hKept : LinesKept source seen d)
    (hSame : SameLines d d')
    (hOnward : Onward d d') :
    LinesKept source seen d' where
  text := hSame.source.trans hKept.text
  standing := hOnward.standing
  stored := by
    rw [hSame.lines]
    exact hKept.stored
  ascending := hKept.ascending
  below := by
    rw [hSame.scanLine]
    exact hKept.below
  numbers := hKept.numbers
  scanned := by
    rw [hSame.scanLine, hSame.scanOffset]
    exact hKept.scanned
  reached := by
    rw [hSame.scanOffset]
    exact Nat.le_trans hKept.reached hOnward.forward
  whole := by
    rw [hSame.scanOffset]
    exact hKept.whole
  behind := by
    intro hSome
    rw [hSame.scanOffset]
    exact Nat.lt_of_lt_of_le (hKept.behind hSome) hOnward.forward

theorem LinesKept.reads
    (hKept : LinesKept source seen d)
    (hReads : Reads d d' read)
    (hOnward : Onward d d') :
    LinesKept source (seen ++ [read]) d' := by
  have hRecords := hReads.records
  have hMin : min read.offset d.source.length = read.offset :=
    Nat.min_eq_left hReads.within
  have hOffset : d'.lineScanOffset = read.offset :=
    hRecords.scanOffset.trans hMin
  have hReached : d.lineScanOffset ≤ read.offset := by
    rw [hReads.offset]
    exact hKept.reached
  -- Counting on from the last directive is counting from scratch.
  have hCount : d'.lineScanLine = lineIndex source read.offset := by
    rw [hRecords.scanLine, hMin, hKept.text, hKept.scanned]
    exact (lineIndex_stretch hKept.whole hReached).symm
  have hAbove : ∀ earlier ∈ seen,
      lineIndex source earlier.offset < lineIndex source read.offset := by
    intro earlier hMem
    have hFurther : d.lineScanOffset < read.offset := by
      rw [hReads.offset]
      exact hKept.behind (List.ne_nil_of_mem hMem)
    have hBreak : source[read.offset - 1]?.any isLineBreak = true := by
      have hFollows := hReads.follows
      unfold followsLineBreak at hFollows
      rw [Bool.or_eq_true, beq_iff_eq, hKept.text] at hFollows
      rcases hFollows with hZero | hBreak
      · omega
      · exact hBreak
    have hSome := lineBreaks_slice_pos hFurther hBreak
    have hStretch := lineIndex_stretch hKept.whole hReached
    have hBelow := hKept.below earlier hMem
    rw [hKept.scanned] at hBelow
    omega
  constructor
  · exact hRecords.source.trans hKept.text
  · exact hOnward.standing
  · rw [hRecords.lines, hKept.stored, List.map_append, hCount]
    rfl
  · rw [List.pairwise_append]
    refine ⟨hKept.ascending, List.pairwise_singleton _ _, ?_⟩
    intro earlier hEarlier later hLater
    rw [List.mem_singleton.1 hLater]
    exact hAbove earlier hEarlier
  · intro earlier hMem
    rw [hCount]
    rcases List.mem_append.1 hMem with hEarlier | hLast
    · exact Nat.le_of_lt (hAbove earlier hEarlier)
    · rw [List.mem_singleton.1 hLast]
  · intro earlier hMem
    rcases List.mem_append.1 hMem with hEarlier | hLast
    · exact hKept.numbers earlier hEarlier
    · rw [List.mem_singleton.1 hLast]
      exact hReads.number
  · rw [hOffset]
    exact hCount
  · rw [hOffset, hReads.offset]
    exact Nat.le_of_lt hReads.further
  · rw [hOffset, ← hKept.text]
    exact hReads.whole
  · intro _
    rw [hOffset, hReads.offset]
    exact hReads.further

variable {c c₀ : Config}

theorem lineReads_kept
    (hTiles : logos.Tiles)
    (hStart : LinesKept source [] c₀.core)
    (hReads : LineReads logos c₀ seen c) :
    LinesKept source seen c.core := by
  induction hReads with
  | start => exact hStart
  | @turn c₁ c₂ seen _ _ hStep ih =>
      have hKept := ih
      have hOnward := iterate_onward hTiles hKept.standing
      cases hStep
      rw [Config.core_after]
      rcases iterate_lines logos hKept.standing with
        ⟨hNone, hSame⟩ | ⟨read, hSome, hRead⟩
      · rw [hNone, Option.toList_none, List.append_nil]
        exact hKept.sameLines hSame hOnward
      · rw [hSome]
        exact hKept.reads hRead hOnward

theorem lineReads_of_reaches
    (hReach : (driverMachine logos).Reaches c₀ c) :
    ∃ seen, LineReads logos c₀ seen c := by
  induction hReach with
  | refl => exact ⟨[], .start _⟩
  | tail _ hMore hStep ih =>
      rcases ih with ⟨seen, hReads⟩
      exact ⟨_, .turn hReads hMore hStep⟩

end Runs

/-
  At every point of a run over a source with fewer than `2 ^ 32` line
  breaks, the counter fits a `u32`, the store holds the active `#line`
  directives handled so far, in strictly ascending lines that are their
  line indices in the whole source, and a query answers with the last
  one in front of its line, with no overflow.
-/
theorem line_store_remaps
    (logos : Logos)
    (hTiles : logos.Tiles)
    (source : List UInt8)
    (symbols : List UInt8 → Bool)
    (triviaMode : Bool)
    (hFits : lineBreaks source < 2 ^ 32)
    (c : Config)
    (hReach : (driverMachine logos).Reaches
      (.initial source symbols triviaMode) c) :
    ∃ seen, LineReads logos (.initial source symbols triviaMode) seen c ∧
      c.core.lineScanLine < 2 ^ 32 ∧
      c.core.lineDirectives.directives =
        seen.map (LineRead.directive source) ∧
      seen.Pairwise (fun a b =>
        lineIndex source a.offset < lineIndex source b.offset) ∧
      ∀ generatedLine, generatedLine < 2 ^ 32 →
        c.core.lineDirectives.remap generatedLine =
          .ok ((seen.filter fun read =>
            lineIndex source read.offset < generatedLine).getLast?.map
              fun read => ⟨read.file,
                assertedLine (lineIndex source read.offset) read.number
                  generatedLine⟩) := by
  rcases lineReads_of_reaches hReach with ⟨seen, hReads⟩
  have hKept := lineReads_kept hTiles (.initial symbols triviaMode) hReads
  have hWithin : c.core.lineScanOffset ≤ source.length := by
    have hPos := hKept.standing.within
    rw [hKept.text] at hPos
    exact Nat.le_trans hKept.reached hPos
  have hCounter : c.core.lineScanLine < 2 ^ 32 := by
    rw [hKept.scanned]
    exact Nat.lt_of_le_of_lt (lineIndex_le hKept.whole hWithin) hFits
  refine ⟨seen, hReads, hCounter, hKept.stored, hKept.ascending, ?_⟩
  intro generatedLine hLine
  have hAscending : c.core.lineDirectives.directives.Pairwise
      (fun a b => a.generatedLine < b.generatedLine) := by
    rw [hKept.stored, List.pairwise_map]
    exact hKept.ascending
  have hSmall : ∀ d ∈ c.core.lineDirectives.directives,
      d.generatedLine < 2 ^ 32 ∧ d.virtualLine < 2 ^ 32 := by
    intro d hMem
    rw [hKept.stored] at hMem
    rcases List.mem_map.1 hMem with ⟨read, hRead, rfl⟩
    have hBelow := hKept.below read hRead
    have hNumber := hKept.numbers read hRead
    refine ⟨Nat.lt_of_le_of_lt hBelow hCounter, ?_⟩
    exact Nat.lt_trans hNumber (by decide)
  rw [remap_eq_last hAscending hSmall hLine, hKept.stored, List.filter_map,
    List.getLast?_map, Option.map_map]
  rfl

/- A directive, and a query behind it. -/
theorem line_store_remaps_behind :
    lineBreaks (ascii "#line 7 \"f\"\n") < 2 ^ 32 ∧
      ∃ c seen,
        LineReads lineFeeds
          (.initial (ascii "#line 7 \"f\"\n") (fun _ => false) false) seen c ∧
        c.core.lineDirectives.directives = [⟨0, 7, some (ascii "f")⟩] ∧
        c.core.lineDirectives.remap 3 = .ok (some ⟨some (ascii "f"), 8⟩) ∧
        c.core.lineScanLine < 2 ^ 32 := by
  have hFits : lineBreaks (ascii "#line 7 \"f\"\n") < 2 ^ 32 := by
    decide
  let c₀ : Config := .initial (ascii "#line 7 \"f\"\n") (fun _ => false)
    false
  let c := c₀.after (c₀.core.iterate lineFeeds)
  have hReach : (driverMachine lineFeeds).Reaches c₀ c :=
    .tail (.refl c₀) rfl rfl
  rcases line_store_remaps lineFeeds lineFeeds_tiles _ _ _ hFits c hReach with
    ⟨seen, hReads, hCounter, -⟩
  exact ⟨hFits, c, seen, hReads, by decide, by decide,
    hCounter⟩

------------------------------------------------------------
-- A Source with Too Many Lines
------------------------------------------------------------

/- A lexer that knows block comments and line feeds only. -/
def comments : Logos :=
  fun text pos =>
    if pos < text.length then
      if (ascii "(*").isPrefixOf (text.drop pos) then
        some (.ok .BlockComment, ⟨pos, min text.length
          (pos + ((text.drop pos).takeWhile (· ≠ byte ')')).length + 1)⟩)
      else
        some (if text[pos]? = some (byte '\n') then
            .ok .Newline
          else
            .error .Unknown, ⟨pos, pos + 1⟩)
    else
      none

theorem comments_tiles : comments.Tiles where
  more := by
    intro text pos hLt
    unfold comments
    rw [if_pos hLt]
    split
    · refine ⟨_, _, rfl, ?_, Nat.min_le_left _ _⟩
      omega
    · exact ⟨_, _, rfl, Nat.lt_succ_self pos, hLt⟩
  last := by
    intro text pos hLe
    exact if_neg (Nat.not_lt_of_le hLe)

/- A comment over `n` line breaks, and the break behind it. -/
def longComment
    (n : Nat) :
    List UInt8 :=
  ascii "(*" ++ List.replicate n (byte '\n') ++ ascii "*)\n"

/- A `#line` behind it. -/
def longSource
    (n : Nat) :
    List UInt8 :=
  longComment n ++ ascii "#line 1\n"

section Shifted

variable (front text : List UInt8)

theorem scanWhile_shift
    (p : UInt8 → Bool)
    (i j : Nat) :
    scanWhile p (front ++ text) (front.length + i) (front.length + j) =
      front.length + scanWhile p text i j := by
  unfold scanWhile
  rw [List.drop_length_add_append, Nat.add_sub_add_left, Nat.add_assoc]

theorem slice_shift
    (i j : Nat) :
    slice (front ++ text) (front.length + i) (front.length + j) =
      slice text i j := by
  unfold slice
  rw [List.drop_length_add_append, Nat.add_sub_add_left]

theorem getElem?_shift
    (i : Nat) :
    (front ++ text)[front.length + i]? = text[i]? := by
  rw [List.getElem?_append_right (Nat.le_add_right _ _),
    Nat.add_sub_cancel_left]

end Shifted

/- The recogniser at a `#line` behind another line. -/
theorem recogniseDirective_line_behind
    {front : List UInt8}
    (hBreak : (front[front.length - 1]?).any isLineBreak = true) :
    recogniseDirective (front ++ ascii "#line 1\n") front.length =
      some (.ok ⟨.Line 1 none, ⟨front.length, front.length + 7⟩⟩) := by
  have hSome : front.length ≠ 0 := by
    intro hZero
    rw [List.length_eq_zero_iff] at hZero
    rw [hZero] at hBreak
    cases hBreak
  have hLength : (front ++ ascii "#line 1\n").length = front.length + 8 := by
    rw [List.length_append]
    rfl
  have hFollows : followsLineBreak (front ++ ascii "#line 1\n")
      front.length = true := by
    unfold followsLineBreak
    rw [List.getElem?_append_left (by omega), hBreak, Bool.or_true]
  have hEnd : lineEndAt (front ++ ascii "#line 1\n") front.length =
      front.length + 7 := by
    unfold lineEndAt
    rw [hLength]
    exact scanWhile_shift front (ascii "#line 1\n") _ 0 8
  have hSkip : skipBom (front ++ ascii "#line 1\n") front.length
      (front.length + 7) = front.length := if_neg fun h => hSome h.1
  have hBlanks : ∀ i j, scanWhile isBlank (front ++ ascii "#line 1\n")
      (front.length + i) (front.length + j) =
        front.length + scanWhile isBlank (ascii "#line 1\n") i j :=
    scanWhile_shift front _ isBlank
  have hStart := hBlanks 0 7
  have hGet := getElem?_shift front (ascii "#line 1\n")
  have hSlice := slice_shift front (ascii "#line 1\n")
  have hTail : lineDirectiveTail (front ++ ascii "#line 1\n")
      (front.length + 7) (front.length + 7) = some none := by
    unfold lineDirectiveTail
    dsimp only
    have hAt : scanWhile isBlank (front ++ ascii "#line 1\n")
        (front.length + 7) (front.length + 7) = front.length + 7 :=
      hBlanks 7 7
    have hFeed : (front ++ ascii "#line 1\n")[front.length + 7]? =
        some (byte '\n') := hGet 7
    simp only [hAt, hFeed, Nat.lt_irrefl, false_and, if_false, ne_eq,
      not_true_eq_false, if_true]
  have hNumber : recogniseLineNumber (front ++ ascii "#line 1\n")
      front.length (front.length + 7) (front.length + 5) =
        some (.ok ⟨.Line 1 none, ⟨front.length, front.length + 7⟩⟩) := by
    unfold recogniseLineNumber
    dsimp only
    rw [hBlanks 5 7]
    have hDigits : scanWhile isAsciiDigit (front ++ ascii "#line 1\n")
        (front.length + 6) (front.length + 7) = front.length + 7 :=
      scanWhile_shift front _ isAsciiDigit 6 7
    have hAt : scanWhile isBlank (ascii "#line 1\n") 5 7 = 6 := by decide
    rw [hAt, hDigits, if_neg (by omega), hTail]
    dsimp only
    rw [hSlice]
    rfl
  have hKeyword : recogniseKeyword (front ++ ascii "#line 1\n")
      front.length (front.length + 7) (front.length + 1) =
        some (.ok ⟨.Line 1 none, ⟨front.length, front.length + 7⟩⟩) := by
    unfold recogniseKeyword
    dsimp only
    have hStop : scanWhile isAsciiAlphabetic (front ++ ascii "#line 1\n")
        (front.length + 1) (front.length + 7) = front.length + 5 :=
      scanWhile_shift front _ isAsciiAlphabetic 1 7
    rw [hStop, hSlice, hSlice, hGet, hBlanks 5 7, hNumber]
    have hApart : ¬ front.length + scanWhile isBlank
        (ascii "#line 1\n") 5 7 = front.length + 5 := by
      intro hEq
      have hPlace := Nat.add_left_cancel hEq
      exact absurd hPlace (by decide)
    rw [if_neg (by decide), if_neg (by decide), if_neg (by decide),
      if_neg (fun h => absurd h.2 (by decide)), if_neg (by decide),
      if_neg (by decide), if_neg (by decide), if_neg (by decide),
      if_pos (by decide), if_neg hApart]
  unfold recogniseDirective
  rw [if_neg (by omega), if_neg (by rw [hFollows]; decide)]
  dsimp only
  rw [hEnd, hSkip]
  have hHere : scanWhile isBlank (front ++ ascii "#line 1\n")
      front.length (front.length + 7) = front.length := hStart
  have hHash : (front ++ ascii "#line 1\n")[front.length]? =
      some (byte '#') := hGet 0
  rw [hHere, if_neg (by
    rw [hHash]
    intro h
    rcases h with hLe | hNe
    · omega
    · exact hNe rfl)]
  exact hKeyword

section Overflow

variable {n : Nat}

theorem longComment_length :
    (longComment n).length = n + 5 := by
  unfold longComment
  rw [List.length_append, List.length_append, List.length_replicate]
  have hOpen : (ascii "(*").length = 2 := rfl
  have hClose : (ascii "*)\n").length = 3 := rfl
  omega

theorem longSource_cons :
    longSource n = byte '(' :: byte '*' ::
      (List.replicate n (byte '\n') ++
        (byte '*' :: byte ')' :: byte '\n' :: ascii "#line 1\n")) := by
  unfold longSource longComment
  simp [ascii]

theorem longSource_length :
    (longSource n).length = n + 13 := by
  unfold longSource
  rw [List.length_append, longComment_length]
  rfl

theorem takeWhile_replicate_append
    (hHolds : p b = true)
    (rest : List UInt8) :
    (List.replicate n b ++ rest).takeWhile p =
      List.replicate n b ++ rest.takeWhile p := by
  induction n with
  | zero => rfl
  | succ n ih =>
      rw [List.replicate_succ, List.cons_append,
        List.takeWhile_cons_of_pos hHolds, ih, List.cons_append]

theorem longSource_get
    (i : Nat) :
    (longSource n)[n + 2 + i]? = (ascii "*)\n#line 1\n")[i]? := by
  have hSplit : longSource n =
      (ascii "(*" ++ List.replicate n (byte '\n')) ++
        ascii "*)\n#line 1\n" := by
    unfold longSource longComment
    simp [ascii]
  have hLength : (ascii "(*" ++ List.replicate n (byte '\n')).length =
      n + 2 := by
    rw [List.length_append, List.length_replicate, Nat.add_comm]
    rfl
  rw [hSplit, ← hLength]
  exact getElem?_shift _ _ i

/- The comment token ends in front of the line break behind it. -/
theorem comments_longSource :
    comments (longSource n) 0 =
      some (.ok .BlockComment, ⟨0, n + 4⟩) := by
  have hWhile : (longSource n).takeWhile (· ≠ byte ')') =
      byte '(' :: byte '*' :: (List.replicate n (byte '\n') ++
        [byte '*']) := by
    rw [longSource_cons, List.takeWhile_cons_of_pos (by decide),
      List.takeWhile_cons_of_pos (by decide),
      takeWhile_replicate_append (by decide)]
    rfl
  have hOpens : (ascii "(*").isPrefixOf (longSource n) = true := by
    rw [longSource_cons]
    rfl
  unfold comments
  rw [longSource_length, if_pos (by omega), List.drop_zero, if_pos hOpens,
    hWhile]
  have hStop : min (n + 13) (0 + (byte '(' :: byte '*' ::
      (List.replicate n (byte '\n') ++ [byte '*'])).length + 1) = n + 4 := by
    rw [List.length_cons, List.length_cons, List.length_append,
      List.length_replicate, List.length_singleton]
    omega
  rw [hStop]

theorem comments_longSource_break :
    comments (longSource n) (n + 4) =
      some (.ok .Newline, ⟨n + 4, n + 5⟩) := by
  have hGet : (longSource n)[n + 4]? = some (byte '\n') :=
    longSource_get 2
  have hOther : ¬ (ascii "(*").isPrefixOf ((longSource n).drop (n + 4)) =
      true := by
    have hIn : n + 4 < (longSource n).length := by
      rw [longSource_length]
      omega
    rw [List.drop_eq_getElem_cons hIn]
    rw [List.getElem?_eq_getElem hIn] at hGet
    rw [Option.some.inj hGet]
    intro hOpens
    cases hOpens
  unfold comments
  rw [longSource_length, if_pos (by omega), if_neg hOther, if_pos hGet]

theorem lineBreaks_longComment :
    lineBreaks (longComment n) = n + 1 := by
  have hFeeds : ∀ rest, lineBreaks (List.replicate n (byte '\n') ++ rest) =
      n + lineBreaks rest := by
    intro rest
    induction n with
    | zero => rw [List.replicate_zero, List.nil_append, Nat.zero_add]
    | succ n ih =>
        rw [List.replicate_succ, List.cons_append, lineBreaks, if_pos rfl, ih]
        omega
  unfold longComment
  rw [List.append_assoc]
  change lineBreaks (byte '(' :: byte '*' ::
    (List.replicate n (byte '\n') ++ ascii "*)\n")) = _
  rw [lineBreaks, if_neg (by decide), if_neg (by decide), lineBreaks,
    if_neg (by decide), if_neg (by decide), hFeeds]
  rfl

/- The driver behind the comment. -/
def behindComment
    (n : Nat) :
    DriverCore :=
  { DriverCore.new (longSource n) (fun _ => false) false with
    pos := n + 4
    lexer := some ⟨0, n + 4, ⟨longSource n, ⟨longSource n, n + 4⟩, 0, []⟩⟩ }

/- The driver at the `#line`. -/
def atLine
    (n : Nat) :
    DriverCore :=
  { behindComment n with
    pos := n + 5
    lexer := some ⟨0, n + 5, ⟨longSource n, ⟨longSource n, n + 5⟩, 0, []⟩⟩ }

theorem iterate_lexes
    {logos : Logos}
    {d : DriverCore}
    (hPending : d.pending = [])
    (hNone : d.directiveHere = none)
    (hMore : d.pos < d.source.length)
    (hActive : d.currentlyActive = true) :
    d.iterate logos = d.lexHere logos := by
  unfold DriverCore.iterate
  rw [hPending]
  dsimp only
  unfold DriverCore.work
  rw [hNone]
  dsimp only
  rw [if_neg (Nat.not_le_of_lt hMore), if_pos hActive]

theorem recogniseDirective_longSource :
    recogniseDirective (longSource n) 0 = none := by
  have hFirst : (longSource n)[0]? = some (byte '(') := by
    rw [longSource_cons]
    rfl
  have hSkip : ∀ lineEnd, skipBom (longSource n) 0 lineEnd = 0 := by
    intro lineEnd
    unfold skipBom
    rw [longSource_cons, if_neg]
    rintro ⟨-, hMark, -⟩
    cases hMark
  have hBlanks : ∀ lineEnd, scanWhile isBlank (longSource n) 0 lineEnd = 0 := by
    intro lineEnd
    by_contra hSome
    rcases lt_scanWhile (Nat.pos_of_ne_zero hSome) with ⟨b, hByte, hBlank⟩
    rw [hFirst] at hByte
    rw [← Option.some.inj hByte] at hBlank
    exact absurd hBlank (by decide)
  have hFollows : followsLineBreak (longSource n) 0 = true := rfl
  unfold recogniseDirective
  rw [if_neg (Nat.not_lt_zero _), hFollows, if_neg (by decide)]
  dsimp only
  rw [hSkip, hBlanks, hFirst, if_pos (.inr (by decide))]

theorem iterate_comment :
    (DriverCore.new (longSource n) (fun _ => false) false).iterate comments =
      (.Yield ⟨.ok (.Lexed .BlockComment), ⟨0, n + 4⟩⟩, behindComment n) := by
  have hMore : 0 < (longSource n).length := by
    rw [longSource_length]
    exact Nat.succ_pos _
  have hNone : (DriverCore.new (longSource n) (fun _ => false)
      false).directiveHere = none := by
    unfold DriverCore.directiveHere
    rw [if_pos ⟨hMore, rfl⟩]
    exact recogniseDirective_longSource
  rw [iterate_lexes rfl hNone hMore rfl]
  unfold DriverCore.lexHere DriverCore.nextLogosToken InterpDriver.next
    SpannedIter.next
  dsimp only [DriverCore.freshLexer, DriverCore.new,
    InterpDriver.newWithFrames]
  simp only [List.drop_zero]
  rw [comments_longSource]
  rfl

theorem iterate_break :
    (behindComment n).iterate comments =
      (.Yield ⟨.ok (.Lexed .Newline), ⟨n + 4, n + 5⟩⟩, atLine n) := by
  have hMore : n + 4 < (longSource n).length := by
    rw [longSource_length]
    omega
  have hNone : (behindComment n).directiveHere = none := by
    have hGet : (longSource n)[n + 3]? = some (byte ')') := longSource_get 1
    have hBreak : (longSource n)[n + 3]?.any isLineBreak = false := by
      rw [hGet]
      rfl
    have hStart : (behindComment n).atLineStart = false := by
      change (n + 4 == 0 || (decide (n + 4 ≤ (longSource n).length) &&
        (longSource n)[n + 3]?.any isLineBreak)) = false
      rw [hBreak, Bool.and_false]
      rfl
    unfold DriverCore.directiveHere
    rw [hStart, if_neg (by simp)]
  rw [iterate_lexes rfl hNone hMore rfl]
  unfold DriverCore.lexHere DriverCore.nextLogosToken InterpDriver.next
    SpannedIter.next
  dsimp only [DriverCore.freshLexer, behindComment]
  rw [if_pos rfl]
  dsimp only
  rw [comments_longSource_break]
  simp only [Nat.add_zero]
  rfl

theorem lineHere_atLine :
    (atLine n).lineHere = some ⟨n + 5, 1, none⟩ := by
  have hGet : (longSource n)[n + 4]? = some (byte '\n') := longSource_get 2
  have hFront : (longComment n)[(longComment n).length - 1]? =
      some (byte '\n') := by
    have hPlace : (longComment n).length - 1 = n + 4 := by
      rw [longComment_length]
      omega
    rw [hPlace, ← hGet, longSource, List.getElem?_append_left]
    rw [longComment_length]
    omega
  have hBreak : (longComment n)[(longComment n).length - 1]?.any
      isLineBreak = true := by
    rw [hFront]
    rfl
  have hDirective := recogniseDirective_line_behind hBreak
  rw [longComment_length] at hDirective
  have hIn : n + 5 < (longSource n).length := by
    rw [longSource_length]
    omega
  have hStart : (atLine n).atLineStart = true := by
    change (n + 5 == 0 || (decide (n + 5 ≤ (longSource n).length) &&
      (longSource n)[n + 4]?.any isLineBreak)) = true
    rw [hGet, decide_eq_true (Nat.le_of_lt hIn)]
    exact Bool.or_true _
  have hHere : (atLine n).directiveHere =
      some (.ok ⟨.Line 1 none, ⟨n + 5, n + 5 + 7⟩⟩) := by
    unfold DriverCore.directiveHere
    rw [if_pos ⟨hIn, hStart⟩]
    exact hDirective
  unfold DriverCore.lineHere
  rw [hHere]
  rfl

/- The count up to the `#line` is that of the comment's lines. -/
theorem iterate_line :
    ((atLine n).iterate comments).2.lineScanLine = n + 1 := by
  have hStanding : Standing (atLine n) := by
    constructor
    · change n + 5 ≤ (longSource n).length
      rw [longSource_length]
      omega
    · intro state hSome
      cases hSome
      exact ⟨rfl, rfl, by dsimp only [InterpDriver.place]; omega⟩
  have hHere := lineHere_atLine (n := n)
  rcases iterate_lines comments hStanding with
    ⟨hNone, -⟩ | ⟨read, hSome, hReads⟩
  · rw [hHere] at hNone
    cases hNone
  · rw [hHere] at hSome
    cases hSome
    have hMin : min (n + 5) (longSource n).length = n + 5 := by
      rw [longSource_length]
      omega
    have hSlice : slice (longSource n) 0 (n + 5) = longComment n := by
      unfold slice longSource
      rw [List.drop_zero, Nat.sub_zero, ← longComment_length]
      exact List.take_left
    have hCount := hReads.records.scanLine
    change _ = 0 + lineBreaks (slice (longSource n) 0
      (min (n + 5) (longSource n).length)) at hCount
    rw [hMin, hSlice, lineBreaks_longComment, Nat.zero_add] at hCount
    exact hCount

theorem longSource_reaches :
    ∃ c, (driverMachine comments).Reaches
        (.initial (longSource n) (fun _ => false) false) c ∧
      c.core.lineScanLine = n + 1 := by
  let c₀ : Config := .initial (longSource n) (fun _ => false) false
  let c₁ : Config := ⟨behindComment n,
    [⟨.ok (.Lexed .BlockComment), ⟨0, n + 4⟩⟩], false⟩
  let c₂ : Config := ⟨atLine n, [⟨.ok (.Lexed .BlockComment), ⟨0, n + 4⟩⟩,
    ⟨.ok (.Lexed .Newline), ⟨n + 4, n + 5⟩⟩], false⟩
  have hComment : (driverMachine comments).step c₀ = .ok c₁ := by
    change Except.ok (c₀.after ((DriverCore.new (longSource n)
      (fun _ => false) false).iterate comments)) = _
    rw [iterate_comment]
    rfl
  have hBreak : (driverMachine comments).step c₁ = .ok c₂ := by
    change Except.ok (c₁.after ((behindComment n).iterate comments)) = _
    rw [iterate_break]
    rfl
  have hReach : (driverMachine comments).Reaches c₀ c₂ :=
    .tail (.tail (.refl c₀) rfl hComment) rfl hBreak
  refine ⟨c₂.after ((atLine n).iterate comments),
    .tail hReach rfl rfl, ?_⟩
  rw [← iterate_line (n := n), Config.core_after]

/-
  Without a bound on the line breaks the counter leaves the `u32`
  range: a comment over `2 ^ 32` lines stands in front of a `#line`.
-/
theorem line_counter_overflows :
    comments.Tiles ∧
      ∃ c, (driverMachine comments).Reaches
        (.initial (longSource (2 ^ 32)) (fun _ => false) false) c ∧
        ¬ c.core.lineScanLine < 2 ^ 32 := by
  refine ⟨comments_tiles, ?_⟩
  rcases longSource_reaches (n := 2 ^ 32) with ⟨c, hReach, hCount⟩
  refine ⟨c, hReach, ?_⟩
  rw [hCount]
  decide

end Overflow

end Directives

end Borzoi
