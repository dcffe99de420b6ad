import Borzoi.Cst.Cursor
import Borzoi.Directives.Lossless
import Borzoi.LexFilter.Upcoming

/-
  The text of the green tree is the consumed part of the source.

  The raw tokens behind the cursor tile the source up to a place that
  the tree has reached, and the filtered tokens behind it end there.
  Every primitive keeps that, and a primitive panics only where a token
  ends inside a character.

  Main declarations:
    * `Anchored`
    * `Written`
    * `Kept`
    * `Kept.exec`
    * `cursor_text_is_source`
-/

namespace Borzoi

namespace Cst

open Directives
open LexFilter
open Lexer
open Text

/- The raw tokens tile the range. -/
def RawTiles
    (lo : Nat)
    (raw : List CoreItem)
    (hi : Nat) :
    Prop :=
  Tiles (fun item => item.span.start) (fun item => item.span.stop) lo raw hi

/- The largest end of the raw tokens among filtered ones. -/
def largestEnd : List FilteredItem → Nat
  | [] => 0
  | item :: rest =>
      if isVirtual item then
        largestEnd rest
      else
        max item.span.stop (largestEnd rest)

/-
  Each raw filtered token starts where a raw token does, or by the
  largest end of the raw filtered tokens before it.
-/
def Anchored
    (raw : List CoreItem)
    (filtered : List FilteredItem) :
    Prop :=
  ∀ i item, filtered[i]? = some item → isVirtual item = false →
    (∃ r ∈ raw, r.span.start = item.span.start) ∨
      item.span.start ≤ largestEnd (filtered.take i)

/- Every token ends between two characters of the source. -/
structure EndsOnChars
    (source : List UInt8)
    (raw : List CoreItem)
    (filtered : List FilteredItem) :
    Prop where
  raw : ∀ item ∈ raw, isCharBoundary source item.span.stop = true
  filtered : ∀ item ∈ filtered, isVirtual item = false →
    isCharBoundary source item.span.stop = true

theorem largestEnd_append
    (xs : List FilteredItem)
    (item : FilteredItem) :
    largestEnd (xs ++ [item]) =
      if isVirtual item then
        largestEnd xs
      else
        max (largestEnd xs) item.span.stop := by
  induction xs with
  | nil => simp [largestEnd]
  | cons x xs ih =>
      rw [List.cons_append, largestEnd, largestEnd, ih]
      split <;> split <;> omega

/- Stepping over a token moves it to the tokens behind the cursor. -/
theorem RawTiles.shift
    {raw rest : List CoreItem}
    {item : CoreItem}
    {rawPos mid hi : Nat}
    (hRest : raw.drop rawPos = item :: rest)
    (hBehind : RawTiles 0 (raw.take rawPos) mid)
    (hAhead : RawTiles mid (raw.drop rawPos) hi) :
    RawTiles 0 (raw.take (rawPos + 1)) item.span.stop ∧
      raw.drop (rawPos + 1) = rest ∧
      RawTiles item.span.stop rest hi := by
  have hHead : raw[rawPos]? = some item := by
    rw [← List.head?_drop, hRest]
    rfl
  have hTail : raw.drop (rawPos + 1) = rest := by
    rw [← List.tail_drop, hRest]
    rfl
  rw [hRest] at hAhead
  rcases hAhead with ⟨hStart, hLt, hAfter⟩
  refine ⟨?_, hTail, hAfter⟩
  rw [List.take_add_one, hHead]
  exact hBehind.append ⟨hStart, hLt, rfl⟩

/- A reply meets the condition, unless a token ends in a character. -/
def Yields
    (safe : Prop)
    (P : Parser → Prop)
    (reply : Except Panic Parser) :
    Prop :=
  match reply with
  | .ok s => P s
  | .error _ => ¬ safe

/- The tree holds the source up to the consumed end. -/
structure Written
    (source : List UInt8)
    (s : Parser) :
    Prop where
  sameSource : s.source = source
  text : greenText s.builder = source.take s.rawConsumedEnd
  within : s.rawConsumedEnd ≤ source.length
  boundary : isCharBoundary source s.rawConsumedEnd = true

/- The consumed end has passed the tokens behind both cursors. -/
structure Kept
    (source : List UInt8)
    (raw : List CoreItem)
    (filtered : List FilteredItem)
    (s : Parser) :
    Prop where
  written : Written source s
  rawTokens : s.rawTokens = raw
  filteredTokens : s.filteredTokens = filtered
  cursor : ∃ mid ≤ s.rawConsumedEnd, RawTiles 0 (raw.take s.rawPos) mid ∧
    RawTiles mid (raw.drop s.rawPos) source.length
  bumped : s.pos < filtered.length →
    largestEnd (filtered.take s.pos) ≤ s.rawConsumedEnd

section Lossless

variable {debug : DebugText} {source : List UInt8} {raw : List CoreItem}
variable {filtered : List FilteredItem} {s : Parser} {safe : Prop}

theorem Yields.mono
    {P Q : Parser → Prop}
    {reply : Except Panic Parser}
    (hYields : Yields safe P reply)
    (hPost : ∀ s, P s → Q s) :
    Yields safe Q reply := by
  cases reply with
  | error e => exact hYields
  | ok s => exact hPost s hYields

/- Only the text and the consumed end change. -/
def Emitted
    (s : Parser)
    (stop : Nat)
    (s' : Parser) :
    Prop :=
  s' = { s with
    rawConsumedEnd := max s.rawConsumedEnd stop
    builder := s'.builder }

theorem take_append_slice
    {lo hi : Nat}
    (hLe : lo ≤ hi) :
    source.take lo ++ (source.drop lo).take (hi - lo) = source.take hi := by
  rw [← List.take_add, Nat.add_sub_cancel' hLe]

variable {item : FilteredItem} {rest : List CoreItem} {i : Nat}

theorem isCharBoundary_le
    (hBoundary : isCharBoundary source i = true) :
    i ≤ source.length := by
  by_contra hOver
  have hNone : source[i]? = none :=
    List.getElem?_eq_none (Nat.le_of_lt (Nat.lt_of_not_le hOver))
  unfold isCharBoundary at hBoundary
  rw [hNone] at hBoundary
  simp only [Bool.or_eq_true, beq_iff_eq] at hBoundary
  omega

theorem greenText_append
    (builder : List GreenEvent)
    (events : List GreenEvent) :
    greenText (builder ++ events) = greenText builder ++ greenText events :=
  List.flatMap_append

/- A token that starts by the consumed end extends the text. -/
theorem Written.emitText
    {span : Span}
    (hWritten : Written source s)
    (kind : SyntaxKind)
    (hStart : span.start ≤ s.rawConsumedEnd)
    (hStop : safe → isCharBoundary source span.stop = true) :
    Yields safe
      (fun s' => Written source s' ∧ Emitted s span.stop s')
      (s.emitText kind span) := by
  have hMax : max span.start s.rawConsumedEnd = s.rawConsumedEnd :=
    Nat.max_eq_right hStart
  unfold Parser.emitText
  simp only [hMax]
  by_cases hDone : s.rawConsumedEnd ≥ span.stop
  · rw [if_pos hDone]
    have hSame : max s.rawConsumedEnd span.stop = s.rawConsumedEnd :=
      Nat.max_eq_left hDone
    refine ⟨⟨hWritten.sameSource, ?_, ?_, ?_⟩, rfl⟩
    · dsimp only
      rw [greenText_append, hWritten.text, hSame]
      exact List.append_nil _
    · rw [hSame]
      exact hWritten.within
    · rw [hSame]
      exact hWritten.boundary
  · rw [if_neg hDone]
    have hLe : s.rawConsumedEnd ≤ span.stop := by omega
    have hGrown : max s.rawConsumedEnd span.stop = span.stop :=
      Nat.max_eq_right hLe
    have hSlice : sliceSource s.source = sliceSource source := by
      rw [hWritten.sameSource]
    rw [hSlice]
    unfold sliceSource
    by_cases hBoundary : isCharBoundary source span.stop = true
    · rw [if_pos ⟨hLe, hWritten.boundary, hBoundary⟩]
      refine ⟨⟨hWritten.sameSource, ?_, ?_, ?_⟩, rfl⟩
      · dsimp only
        rw [greenText_append, hWritten.text, hGrown,
          ← take_append_slice hLe]
        exact congrArg _ (List.append_nil _)
      · rw [hGrown]
        exact isCharBoundary_le hBoundary
      · rw [hGrown]
        exact hBoundary
    · rw [if_neg fun hAll => hBoundary hAll.2.2]
      exact fun hSafe => hBoundary (hStop hSafe)

/- Emitting the next raw token steps the cursor. -/
theorem Kept.emitRaw
    {item : CoreItem}
    (hKept : Kept source raw filtered s)
    (kind : SyntaxKind)
    (hRest : s.rawRest = item :: rest)
    (hStop : safe → isCharBoundary source item.span.stop = true) :
    Yields safe
      (fun s' => Kept source raw filtered s' ∧ s'.rawRest = rest ∧
        s'.pos = s.pos)
      (s.emitRaw kind item.span) := by
  rcases hKept.cursor with ⟨mid, hMid, hBehind, hAhead⟩
  have hDrop : raw.drop s.rawPos = item :: rest := by
    rw [← hKept.rawTokens]
    exact hRest
  rcases hBehind.shift hDrop hAhead with ⟨hBehind', hDrop', hAhead'⟩
  have hStart : item.span.start ≤ s.rawConsumedEnd := by
    rw [hDrop] at hAhead
    exact Nat.le_trans (Nat.le_of_eq hAhead.1) hMid
  have hEmit := hKept.written.emitText kind hStart hStop
  unfold Parser.emitRaw
  revert hEmit
  rcases s.emitText kind item.span with e | s'
  · exact id
  · rintro ⟨hWritten, hEmitted⟩
    have hEnd : s'.rawConsumedEnd =
        max s.rawConsumedEnd item.span.stop := by
      rw [hEmitted]
    have hPos : s'.rawPos = s.rawPos := by
      rw [hEmitted]
    have hFiltered : s'.pos = s.pos := by
      rw [hEmitted]
    have hTokens : s'.rawTokens = raw := by
      rw [hEmitted]
      exact hKept.rawTokens
    refine ⟨⟨⟨hWritten.sameSource, hWritten.text, hWritten.within,
      hWritten.boundary⟩, hTokens, ?_, ?_, ?_⟩, ?_, hFiltered⟩
    · rw [hEmitted]
      exact hKept.filteredTokens
    · refine ⟨item.span.stop, ?_, ?_, ?_⟩
      · change item.span.stop ≤ s'.rawConsumedEnd
        rw [hEnd]
        exact Nat.le_max_right _ _
      · change RawTiles 0 (raw.take (s'.rawPos + 1)) item.span.stop
        rw [hPos]
        exact hBehind'
      · change RawTiles _ (raw.drop (s'.rawPos + 1)) _
        rw [hPos, hDrop']
        exact hAhead'
    · intro hLess
      change largestEnd (filtered.take s'.pos) ≤ s'.rawConsumedEnd
      rw [hFiltered, hEnd]
      change s'.pos < filtered.length at hLess
      rw [hFiltered] at hLess
      exact Nat.le_trans (hKept.bumped hLess) (Nat.le_max_left _ _)
    · change s'.rawTokens.drop (s'.rawPos + 1) = rest
      rw [hTokens, hPos]
      exact hDrop'

theorem Kept.pushErrorIf
    (hKept : Kept source raw filtered s)
    (message : Option String)
    (span : Span) :
    Kept source raw filtered (s.pushErrorIf message span) := by
  cases message with
  | none => exact hKept
  | some message =>
      rcases hKept with ⟨⟨hSource, hText, hWithin, hBoundary⟩, hRaw,
        hFiltered, hCursor, hBumped⟩
      exact ⟨⟨hSource, hText, hWithin, hBoundary⟩, hRaw, hFiltered,
        hCursor, hBumped⟩

/- A token that stands for its bytes is emitted. -/
theorem drainAs_covers
    (debug : DebugText)
    {item : CoreItem}
    (hCovers : item.coversSource = true) :
    ∃ kind message,
      Parser.drainAs debug item.result = .ok (some (kind, message)) := by
  unfold CoreItem.coversSource at hCovers
  unfold Parser.drainAs
  cases hResult : item.result with
  | error e =>
      cases e with
      | Lex e => exact ⟨_, _, rfl⟩
      | _ =>
          rw [hResult] at hCovers
          cases hCovers
  | ok tt =>
      cases tt with
      | Lexed tok =>
          dsimp only
          cases triviaKind tok with
          | none => exact ⟨_, _, rfl⟩
          | some kind => exact ⟨_, _, rfl⟩
      | _ => exact ⟨_, _, rfl⟩

theorem Kept.mem_rawRest
    {item : CoreItem}
    (hKept : Kept source raw filtered s)
    (hMem : item ∈ s.rawRest) :
    item ∈ raw := by
  unfold Parser.rawRest at hMem
  rw [hKept.rawTokens] at hMem
  exact List.mem_of_mem_drop hMem

/- A drain stops in front of a token that ends behind its bound. -/
theorem Kept.drainLoop
    (hCovers : ∀ item ∈ raw, item.coversSource = true)
    (hKept : Kept source raw filtered s)
    (upTo : Nat)
    (hRest : s.rawRest = rest) :
    Yields (EndsOnChars source raw filtered)
      (fun s' => Kept source raw filtered s' ∧ s'.pos = s.pos ∧
        ∀ item rest', s'.rawRest = item :: rest' → upTo < item.span.stop)
      (Parser.drainLoop debug upTo rest s) := by
  induction rest generalizing s with
  | nil =>
      refine ⟨hKept, rfl, ?_⟩
      intro item rest' hMore
      rw [hRest] at hMore
      cases hMore
  | cons item rest ih =>
      rw [Parser.drainLoop]
      split
      · next hPast =>
          refine ⟨hKept, rfl, ?_⟩
          intro item' rest' hMore
          rw [hRest] at hMore
          cases hMore
          exact hPast
      · have hMem : item ∈ raw := by
          apply hKept.mem_rawRest
          rw [hRest]
          exact List.mem_cons_self
        rcases drainAs_covers debug (hCovers item hMem) with
          ⟨kind, message, hAs⟩
        rw [hAs]
        have hRest' : (s.pushErrorIf message item.span).rawRest =
            item :: rest := by
          cases message <;> exact hRest
        have hPos : (s.pushErrorIf message item.span).pos = s.pos := by
          cases message <;> rfl
        have hEmit := (hKept.pushErrorIf message item.span).emitRaw kind
          hRest' fun hEnds : EndsOnChars source raw filtered =>
            hEnds.raw item hMem
        dsimp only
        revert hEmit
        rcases (s.pushErrorIf message item.span).emitRaw kind item.span with
          e | s'
        · exact id
        · rintro ⟨hKept', hNext, hSame⟩
          apply (ih hKept' hNext).mono
          rintro s'' ⟨hKept'', hSame', hStop⟩
          exact ⟨hKept'', hSame'.trans (hSame.trans hPos), hStop⟩

theorem Kept.drainRawUpTo
    (hCovers : ∀ item ∈ raw, item.coversSource = true)
    (hKept : Kept source raw filtered s)
    (debug : DebugText)
    (upTo : Nat) :
    Yields (EndsOnChars source raw filtered)
      (fun s' => Kept source raw filtered s' ∧ s'.pos = s.pos ∧
        ∀ item rest', s'.rawRest = item :: rest' → upTo < item.span.stop)
      (s.drainRawUpTo debug upTo) :=
  hKept.drainLoop hCovers upTo rfl

------------------------------------------------------------
-- Bumping
------------------------------------------------------------

/- The tokens passed end by the new consumed end. -/
theorem advancePast_tiles
    {rawPos mid stop consumed hi : Nat}
    (hRest : raw.drop rawPos = rest)
    (hBehind : RawTiles 0 (raw.take rawPos) mid)
    (hAhead : RawTiles mid (raw.drop rawPos) hi)
    (hMid : mid ≤ consumed) :
    ∃ mid' ≤ max consumed stop,
      RawTiles 0 (raw.take (Parser.advancePast stop rest rawPos)) mid' ∧
        RawTiles mid' (raw.drop (Parser.advancePast stop rest rawPos))
          hi := by
  induction rest generalizing rawPos mid consumed with
  | nil =>
      exact ⟨mid, Nat.le_trans hMid (Nat.le_max_left _ _), hBehind, hAhead⟩
  | cons item rest ih =>
      rw [Parser.advancePast]
      split
      · next hPast =>
          rcases hBehind.shift hRest hAhead with
            ⟨hBehind', hRest', hAhead'⟩
          rw [← hRest'] at hAhead'
          have hMid' : item.span.stop ≤ max consumed stop :=
            Nat.le_trans hPast (Nat.le_max_right _ _)
          rcases ih hRest' hBehind' hAhead' hMid' with
            ⟨mid', hLe, hBehind'', hAhead''⟩
          refine ⟨mid', ?_, hBehind'', hAhead''⟩
          omega
      · exact ⟨mid, Nat.le_trans hMid (Nat.le_max_left _ _), hBehind,
          hAhead⟩

/-
  Once the tokens that end in front of it are drained, the consumed end
  has reached the start of a raw token.
-/
theorem Kept.start_le
    {r : CoreItem}
    (hKept : Kept source raw filtered s)
    (hMem : r ∈ raw)
    (hDrained : ∀ item rest, s.rawRest = item :: rest →
      r.span.start < item.span.stop) :
    r.span.start ≤ s.rawConsumedEnd := by
  rcases hKept.cursor with ⟨mid, hMid, hBehind, hAhead⟩
  have hRest : raw.drop s.rawPos = s.rawRest := by
    unfold Parser.rawRest
    rw [hKept.rawTokens]
  rw [← List.take_append_drop s.rawPos raw] at hMem
  rcases List.mem_append.1 hMem with hBefore | hAfter
  · have hIn := hBehind.within r hBefore
    omega
  · cases hShape : s.rawRest with
    | nil =>
        rw [hRest, hShape] at hAfter
        cases hAfter
    | cons item rest =>
        rw [hRest, hShape] at hAfter hAhead
        rcases hAhead with ⟨hStart, -, hLater⟩
        rcases List.mem_cons.1 hAfter with rfl | hIn
        · exact Nat.le_trans (Nat.le_of_eq hStart) hMid
        · have hOrder : item.span.stop ≤ r.span.start :=
            (hLater.within r hIn).1
          have hLess := hDrained item rest hShape
          omega

theorem largestEnd_take_succ
    (hItem : filtered[i]? = some item) :
    largestEnd (filtered.take (i + 1)) =
      if isVirtual item then
        largestEnd (filtered.take i)
      else
        max (largestEnd (filtered.take i)) item.span.stop := by
  rw [List.take_add_one, hItem]
  exact largestEnd_append _ _

/- A virtual token is empty, and the cursor stays. -/
theorem Kept.bumpVirtual
    (hKept : Kept source raw filtered s)
    (kind : SyntaxKind)
    (hItem : filtered[s.pos]? = some item)
    (hVirtual : isVirtual item = true) :
    Kept source raw filtered
      { s with
        pos := s.pos + 1
        builder := s.builder ++ [.token kind []] } := by
  have hWritten := hKept.written
  refine ⟨⟨hWritten.sameSource, ?_, hWritten.within, hWritten.boundary⟩,
    hKept.rawTokens, hKept.filteredTokens, hKept.cursor, ?_⟩
  · dsimp only
    rw [greenText_append, hWritten.text]
    exact List.append_nil _
  · intro hLess
    dsimp only at hLess ⊢
    rw [largestEnd_take_succ hItem, if_pos hVirtual]
    exact hKept.bumped (Nat.lt_of_succ_lt hLess)

/- A raw filtered token passes the raw tokens it covers. -/
theorem Kept.bumpReal
    (hKept : Kept source raw filtered s)
    (kind : SyntaxKind)
    (hItem : filtered[s.pos]? = some item)
    (hReal : isVirtual item = false)
    (hStart : item.span.start ≤ s.rawConsumedEnd) :
    Yields (EndsOnChars source raw filtered) (Kept source raw filtered)
      (Parser.emitText
        { s with
          pos := s.pos + 1
          rawPos := Parser.advancePast item.span.stop s.rawRest s.rawPos }
        kind item.span) := by
  have hWritten : Written source
      { s with
        pos := s.pos + 1
        rawPos := Parser.advancePast item.span.stop s.rawRest s.rawPos } := by
    rcases hKept.written with ⟨hSource, hText, hWithin, hBoundary⟩
    exact ⟨hSource, hText, hWithin, hBoundary⟩
  have hMem : item ∈ filtered := List.mem_of_getElem? hItem
  have hRest : raw.drop s.rawPos = s.rawRest := by
    unfold Parser.rawRest
    rw [hKept.rawTokens]
  rcases hKept.cursor with ⟨mid, hMid, hBehind, hAhead⟩
  apply (hWritten.emitText kind hStart
    fun hEnds : EndsOnChars source raw filtered =>
      hEnds.filtered item hMem hReal).mono
  rintro s' ⟨hWritten', hEmitted⟩
  have hTokens : s'.rawTokens = raw := by
    rw [hEmitted]
    exact hKept.rawTokens
  have hFiltered : s'.filteredTokens = filtered := by
    rw [hEmitted]
    exact hKept.filteredTokens
  refine ⟨hWritten', hTokens, hFiltered, ?_, ?_⟩
  · rw [hEmitted]
    exact advancePast_tiles hRest hBehind hAhead hMid
  · rw [hEmitted]
    intro hLess
    dsimp only at hLess ⊢
    rw [largestEnd_take_succ hItem, hReal]
    have hOld := hKept.bumped (Nat.lt_of_succ_lt hLess)
    simp only [Bool.false_eq_true, if_false]
    omega

theorem Kept.bumpInto
    (hCovers : ∀ item ∈ raw, item.coversSource = true)
    (hAnchored : Anchored raw filtered)
    (hKept : Kept source raw filtered s)
    (kind : SyntaxKind) :
    Yields (EndsOnChars source raw filtered) (Kept source raw filtered)
      (s.bumpInto debug kind) := by
  unfold Parser.bumpInto
  rw [hKept.filteredTokens]
  cases hItem : filtered[s.pos]? with
  | none => exact hKept
  | some item =>
      dsimp only
      cases hVirtual : isVirtual item with
      | true =>
          rw [if_pos rfl]
          have hBumped : ∀ s' : Parser, Kept source raw filtered s' →
              s'.pos = s.pos → Kept source raw filtered
                { s' with
                  pos := s'.pos + 1
                  builder := s'.builder ++ [.token kind []] } := by
            intro s' hKept' hPos
            rw [← hPos] at hItem
            exact hKept'.bumpVirtual kind hItem hVirtual
          cases filtered[s.pos + 1]? with
          | none =>
              have hDrain := hKept.drainRawUpTo hCovers debug usizeMax
              revert hDrain
              rcases s.drainRawUpTo debug usizeMax with e | s'
              · exact id
              · rintro ⟨hKept', hPos, -⟩
                exact hBumped s' hKept' hPos
          | some next =>
              have hDrain := hKept.drainRawUpTo hCovers debug
                next.span.start
              revert hDrain
              rcases s.drainRawUpTo debug next.span.start with e | s'
              · exact id
              · rintro ⟨hKept', hPos, -⟩
                exact hBumped s' hKept' hPos
      | false =>
          rw [if_neg Bool.false_ne_true]
          have hDrain := hKept.drainRawUpTo hCovers debug
            item.span.start
          revert hDrain
          rcases s.drainRawUpTo debug item.span.start with e | s'
          · exact id
          · rintro ⟨hKept', hPos, hDrained⟩
            have hLess := (List.getElem?_eq_some_iff.1 hItem).1
            have hStart : item.span.start ≤ s'.rawConsumedEnd := by
              rcases hAnchored s.pos item hItem hVirtual with
                ⟨r, hMem, hEq⟩ | hBefore
              · rw [← hEq] at hDrained ⊢
                exact hKept'.start_le hMem hDrained
              · rw [← hPos] at hBefore hLess
                exact Nat.le_trans hBefore (hKept'.bumped hLess)
            rw [← hPos] at hItem
            exact hKept'.bumpReal kind hItem hVirtual hStart

theorem Kept.swallowLoop
    {kind : SyntaxKind}
    {isCloser : Token → Bool}
    {closer construct : String}
    (hKept : Kept source raw filtered s)
    (hRest : s.rawRest = rest) :
    Yields (EndsOnChars source raw filtered) (Kept source raw filtered)
      (Parser.swallowLoop debug kind isCloser closer construct rest s) := by
  induction rest generalizing s with
  | nil => exact hKept.pushErrorIf (some _) _
  | cons item rest ih =>
      have hMem : item ∈ raw := by
        apply hKept.mem_rawRest
        rw [hRest]
        exact List.mem_cons_self
      have hEmit : ∀ kind, Yields (EndsOnChars source raw filtered)
          (fun s' => Kept source raw filtered s' ∧ s'.rawRest = rest ∧
            s'.pos = s.pos)
          (s.emitRaw kind item.span) :=
        fun kind => hKept.emitRaw kind hRest fun hEnds =>
          hEnds.raw item hMem
      have hStuck : ∀ message, Kept source raw filtered
          (s.pushError message item.span) :=
        fun message => hKept.pushErrorIf (some message) item.span
      rw [Parser.swallowLoop]
      split
      · exact hStuck _
      · next tt _ =>
          split
          · next trivia _ =>
              have hTrivia := hEmit trivia
              revert hTrivia
              rcases s.emitRaw trivia item.span with e | s'
              · exact id
              · rintro ⟨hKept', hNext, -⟩
                exact ih hKept' hNext
          · split
            · split
              · exact (hEmit kind).mono fun s' hDone => hDone.1
              · exact hStuck _
            · exact hStuck _

section

variable (hTiles : RawTiles 0 raw source.length)

include hTiles

theorem Kept.triggerDepthLimit
    (hKept : Kept source raw filtered s) :
    Yields safe (Kept source raw filtered) s.triggerDepthLimit := by
  have hWritten := hKept.written
  have hLength : s.source.length = source.length := by
    rw [hWritten.sameSource]
  -- the whole source is in the tree
  have hAll : ∀ span events,
      greenText events = source.drop s.rawConsumedEnd →
      Kept source raw filtered
        { s with
          depthLimitHit := true
          depthLimitSpan := some span
          builder := s.builder ++ [.startNode .ERROR] ++ events ++
            [.finishNode]
          rawConsumedEnd := source.length
          rawPos := s.rawTokens.length
          pos := s.filteredTokens.length } := by
    intro span events hEvents
    refine ⟨⟨hWritten.sameSource, ?_, Nat.le_refl _, ?_⟩,
      hKept.rawTokens, hKept.filteredTokens, ?_, ?_⟩
    · dsimp only
      rw [greenText_append, greenText_append, greenText_append, hEvents,
        hWritten.text, List.take_length]
      change source.take s.rawConsumedEnd ++ [] ++
        source.drop s.rawConsumedEnd ++ [] = source
      rw [List.append_nil, List.append_nil, List.take_append_drop]
    · exact Core.isCharBoundary_length source
    · refine ⟨source.length, Nat.le_refl _, ?_, ?_⟩
      · dsimp only
        rw [hKept.rawTokens, List.take_length]
        exact hTiles
      · dsimp only
        rw [hKept.rawTokens, List.drop_length]
        exact rfl
    · intro hLess
      dsimp only at hLess
      rw [hKept.filteredTokens] at hLess
      exact absurd hLess (Nat.lt_irrefl _)
  unfold Parser.triggerDepthLimit Parser.errorLeaf
  by_cases hMore : s.rawConsumedEnd < s.source.length
  · have hSlice : sliceSource s.source s.rawConsumedEnd s.source.length =
        .ok (source.drop s.rawConsumedEnd) := by
      unfold sliceSource
      have hBoundary := hWritten.boundary
      have hEnd := Core.isCharBoundary_length s.source
      rw [← hWritten.sameSource] at hBoundary ⊢
      rw [if_pos ⟨Nat.le_of_lt hMore, hBoundary, hEnd⟩,
        List.take_of_length_le (Nat.le_of_eq List.length_drop)]
    rw [if_pos hMore, hSlice]
    have hDone := fun span => hAll span
      [.token .ERROR (source.drop s.rawConsumedEnd)] (List.append_nil _)
    rw [← hLength] at hDone
    exact hDone _
  · rw [if_neg hMore]
    have hWithin := hWritten.within
    have hEnd : s.rawConsumedEnd = source.length := by omega
    have hDone := fun span => hAll span []
      (by rw [hEnd, List.drop_length]; rfl)
    rw [← hEnd] at hDone
    exact hDone _

theorem Kept.new :
    Kept source raw filtered (Parser.new source raw filtered) where
  written := ⟨rfl, rfl, Nat.zero_le _, rfl⟩
  rawTokens := rfl
  filteredTokens := rfl
  cursor := ⟨0, Nat.le_refl _, rfl, hTiles⟩
  bumped := fun _ => Nat.le_refl _

theorem Kept.exec
    (hCovers : ∀ item ∈ raw, item.coversSource = true)
    (hAnchored : Anchored raw filtered)
    (hKept : Kept source raw filtered s)
    (op : CursorOp) :
    Yields (EndsOnChars source raw filtered) (Kept source raw filtered)
      (op.exec debug s) := by
  cases op with
  | bumpInto kind => exact hKept.bumpInto hCovers hAnchored kind
  | drainRawUpTo upTo =>
      exact (hKept.drainRawUpTo hCovers debug upTo).mono
        fun s' hDone => hDone.1
  | bumpSwallowedCloser kind isCloser closer construct =>
      exact hKept.swallowLoop rfl
  | triggerDepthLimit => exact hKept.triggerDepthLimit hTiles

theorem Kept.runOps
    (hCovers : ∀ item ∈ raw, item.coversSource = true)
    (hAnchored : Anchored raw filtered)
    (hKept : Kept source raw filtered s)
    (ops : List CursorOp) :
    Yields (EndsOnChars source raw filtered) (Kept source raw filtered)
      (runOps debug ops s) := by
  induction ops generalizing s with
  | nil => exact hKept
  | cons op ops ih =>
      have hStep : Yields (EndsOnChars source raw filtered)
          (Kept source raw filtered) (op.exec debug s) :=
        hKept.exec hTiles hCovers hAnchored op
      rw [Cst.runOps]
      revert hStep
      rcases op.exec debug s with e | s'
      · exact id
      · exact fun hKept' => ih hKept'

end

/- Behind the last drain the tree holds the whole source. -/
theorem Kept.drained
    (hKept : Kept source raw filtered s)
    (hLength : source.length ≤ usizeMax)
    (hDrained : ∀ item rest, s.rawRest = item :: rest →
      usizeMax < item.span.stop) :
    greenText s.builder = source := by
  rcases hKept.cursor with ⟨mid, hMid, hBehind, hAhead⟩
  have hRest : raw.drop s.rawPos = s.rawRest := by
    unfold Parser.rawRest
    rw [hKept.rawTokens]
  have hWithin := hKept.written.within
  cases hShape : s.rawRest with
  | nil =>
      rw [hRest, hShape] at hAhead
      have hEnd : mid = source.length := hAhead
      have hAll : s.rawConsumedEnd = source.length := by omega
      rw [hKept.written.text, hAll, List.take_length]
  | cons item rest =>
      have hPast := hDrained item rest hShape
      rw [hRest, hShape] at hAhead
      have hIn : item.span.stop ≤ source.length :=
        (hAhead.within item List.mem_cons_self).2.2
      omega

theorem Kept.behind
    (hKept : Kept source raw filtered s) :
    ∀ item ∈ s.rawTokens.take s.rawPos,
      item.span.stop ≤ s.rawConsumedEnd := by
  intro item hMem
  rw [hKept.rawTokens] at hMem
  rcases hKept.cursor with ⟨mid, hMid, hBehind, -⟩
  exact Nat.le_trans (hBehind.within item hMem).2.2 hMid

end Lossless

/-
  Whatever the productions do, the text of the tree is the source up to
  the consumed end, and behind the last drain it is the whole source.
-/
theorem cursor_text_is_source
    (debug : DebugText)
    (source : List UInt8)
    (raw : List CoreItem)
    (filtered : List FilteredItem)
    (ops : List CursorOp)
    (hTiles : RawTiles 0 raw source.length)
    (hCovers : ∀ item ∈ raw, item.coversSource = true)
    (hAnchored : Anchored raw filtered)
    (hLength : source.length ≤ usizeMax) :
    (∀ s, runOps debug ops (Parser.new source raw filtered) = .ok s →
        s.rawConsumedEnd ≤ source.length ∧
          greenText s.builder = source.take s.rawConsumedEnd ∧
          (∀ item ∈ s.rawTokens.take s.rawPos,
            item.span.stop ≤ s.rawConsumedEnd) ∧
          ∀ s', s.drainRawUpTo debug usizeMax = .ok s' →
            greenText s'.builder = source) ∧
      (EndsOnChars source raw filtered →
        ∃ s s', runOps debug ops (Parser.new source raw filtered) = .ok s ∧
          s.drainRawUpTo debug usizeMax = .ok s') := by
  have hNew : Kept source raw filtered (Parser.new source raw filtered) :=
    Kept.new hTiles
  have hRun : Yields (EndsOnChars source raw filtered)
      (Kept source raw filtered)
      (runOps debug ops (Parser.new source raw filtered)) :=
    hNew.runOps hTiles hCovers hAnchored ops
  constructor
  · intro s hEnd
    rw [hEnd] at hRun
    have hKept : Kept source raw filtered s := hRun
    refine ⟨hKept.written.within, hKept.written.text, hKept.behind, ?_⟩
    intro s' hLast
    have hDrain := hKept.drainRawUpTo hCovers debug usizeMax
    rw [hLast] at hDrain
    rcases hDrain with ⟨hKept', -, hDrained⟩
    exact hKept'.drained hLength hDrained
  · intro hEnds
    cases hEnd : runOps debug ops (Parser.new source raw filtered) with
    | error e =>
        rw [hEnd] at hRun
        exact absurd hEnds hRun
    | ok s =>
        rw [hEnd] at hRun
        have hKept : Kept source raw filtered s := hRun
        have hDrain := hKept.drainRawUpTo hCovers debug usizeMax
        cases hLast : s.drainRawUpTo debug usizeMax with
        | error e =>
            rw [hLast] at hDrain
            exact absurd hEnds hDrain
        | ok s' => exact ⟨s, s', rfl, hLast⟩

/- A `>>` in front of a space, bumped as two halves. -/
theorem cursor_text_is_source_split :
    ∃ s s' : Parser,
      runOps ⟨fun _ => "", fun _ => "", fun _ => ""⟩
          [.bumpInto (.Other 0), .bumpInto (.Other 0)]
          (Parser.new [62, 62, 32]
            [⟨.ok (.Lexed (.Op ">>".toList)), ⟨0, 2⟩⟩,
              ⟨.ok (.Lexed .Whitespace), ⟨2, 3⟩⟩]
            [⟨.ok (.Raw (.Greater true)), ⟨0, 1⟩⟩,
              ⟨.ok (.Raw (.Greater true)), ⟨1, 2⟩⟩]) = .ok s ∧
        greenText s.builder = [62, 62] ∧
        s.drainRawUpTo ⟨fun _ => "", fun _ => "", fun _ => ""⟩ usizeMax =
          .ok s' ∧
        greenText s'.builder = [62, 62, 32] := by
  have hText := cursor_text_is_source ⟨fun _ => "", fun _ => "", fun _ => ""⟩
    [62, 62, 32]
    [⟨.ok (.Lexed (.Op ">>".toList)), ⟨0, 2⟩⟩,
      ⟨.ok (.Lexed .Whitespace), ⟨2, 3⟩⟩]
    [⟨.ok (.Raw (.Greater true)), ⟨0, 1⟩⟩,
      ⟨.ok (.Raw (.Greater true)), ⟨1, 2⟩⟩]
    [.bumpInto (.Other 0), .bumpInto (.Other 0)]
    ⟨rfl, by decide, rfl, by decide, rfl⟩
    (by decide) (by
      intro i item hItem _
      match i with
      | 0 =>
          cases hItem
          exact .inr (Nat.le_refl 0)
      | 1 =>
          cases hItem
          exact .inr (by decide)
      | i + 2 => cases hItem)
    (by decide)
  rcases hText.2 ⟨by decide, by decide⟩ with ⟨s, s', hRun, hLast⟩
  have hSource := (hText.1 s hRun).2.2.2 s' hLast
  refine ⟨s, s', hRun, ?_, hLast, hSource⟩
  cases hRun
  rfl

end Cst

end Borzoi
