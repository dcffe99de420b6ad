import Borzoi.Directives.Lossless

/-
  The two modes of the driver.

  A driver in full-trivia mode is compared with the same driver in
  swallow mode, which has no markers to queue.  The queue of the second
  is emptied behind every turn of the first.

  Main declarations:
    * `DriverCore.swallow`
    * `Config.swallow`
    * `swallow_step`
    * `swallow_agrees_with_full_trivia`
-/

namespace Borzoi

namespace Directives

open Lexer
open Program

/- Whether the item is a token or an error. -/
def CoreItem.isLexed
    (item : CoreItem) :
    Bool :=
  item.lexed.isSome

/- The tokens and errors of a list of items. -/
def lexedItems
    (items : List CoreItem) :
    List CoreItem :=
  items.filter CoreItem.isLexed

@[simp]
theorem lexedItems_append
    (xs ys : List CoreItem) :
    lexedItems (xs ++ ys) = lexedItems xs ++ lexedItems ys :=
  List.filter_append xs ys

variable {range : Span} {marker : TriviaToken}

theorem lexedItems_marker
    (hMarker : ∀ token, marker ≠ .Lexed token) :
    lexedItems [⟨.ok marker, range⟩] = [] := by
  cases marker with
  | Lexed token =>
      exact absurd rfl (hMarker token)
  | _ =>
      rfl

theorem lexedItems_of_all
    {items : List CoreItem}
    (hAll : ∀ item ∈ items, item.isLexed = true) :
    lexedItems items = items :=
  List.filter_eq_self.2 hAll

/- The items a swallow-mode iterator yields are the lexed ones. -/
theorem map_lexed_lexedItems
    (items : List CoreItem) :
    (lexedItems items).map CoreItem.lexed =
      (items.filterMap CoreItem.lexed).map some := by
  induction items with
  | nil =>
      rfl
  | cons item items ih =>
      unfold lexedItems at ih ⊢
      cases hItem : item.lexed with
      | none =>
          have hDrop : ¬ item.isLexed = true := by
            unfold CoreItem.isLexed
            rw [hItem]
            exact Bool.false_ne_true
          rw [List.filter_cons_of_neg hDrop,
            List.filterMap_cons_none hItem]
          exact ih
      | some lexed =>
          have hKeep : item.isLexed = true := by
            unfold CoreItem.isLexed
            rw [hItem]
            rfl
          rw [List.filter_cons_of_pos hKeep,
            List.filterMap_cons_some hItem, List.map_cons,
            List.map_cons, ih, hItem]

namespace DriverCore

variable {d : DriverCore}

/- The driver in swallow mode. -/
def swallow
    (d : DriverCore) :
    DriverCore :=
  { d with
    triviaMode := false
    coveredEnd := 0
    pending := lexedItems d.pending }

theorem swallow_queue
    (items : List CoreItem) :
    (d.queue items).swallow = d.swallow.queue (lexedItems items) := by
  unfold swallow queue
  dsimp only
  rw [lexedItems_append]

theorem swallow_fillInactiveGap
    (upTo : Nat) :
    (d.fillInactiveGap upTo).swallow = d.swallow := by
  unfold fillInactiveGap
  split
  · have hGap : lexedItems [⟨.ok .InactiveCode,
        ⟨d.coveredEnd, upTo⟩⟩] = [] := rfl
    have hQueue := @swallow_queue d [⟨.ok .InactiveCode,
      ⟨d.coveredEnd, upTo⟩⟩]
    rw [hGap] at hQueue
    unfold queue at hQueue
    rw [List.append_nil] at hQueue
    exact hQueue
  · rfl

theorem swallow_cover
    (item : CoreItem) :
    (d.cover item).swallow = d.swallow.queue (lexedItems [item]) := by
  have hQueue := @swallow_queue (d.fillInactiveGap item.span.start)
    [item]
  rw [swallow_fillInactiveGap] at hQueue
  exact hQueue

theorem swallow_emitTriviaMarker
    (hMarker : ∀ token, marker ≠ .Lexed token) :
    (d.emitTriviaMarker marker range).swallow = d.swallow := by
  unfold emitTriviaMarker
  rw [swallow_cover, lexedItems_marker hMarker]
  unfold queue
  rw [List.append_nil]

theorem swallow_skipTo
    (pos : Nat) :
    (d.skipTo pos).swallow = d.swallow.skipTo pos := by
  unfold skipTo invalidateLexer swallow
  cases d.lexer with
  | none =>
      rfl
  | some state =>
      rfl

theorem swallow_recordLine
    (r : Recognised) :
    (d.recordLine r).swallow = d.swallow.recordLine r := by
  unfold recordLine
  cases r.directive with
  | Line number file =>
      rfl
  | _ =>
      rfl

theorem swallow_handleTrivia
    (r : Recognised) :
    (d.handleTrivia r).swallow = d.swallow.handleTrivia r := by
  unfold handleTrivia
  have hActive : d.swallow.currentlyActive = d.currentlyActive := rfl
  rw [hActive]
  by_cases hLit : d.currentlyActive = true
  · rw [if_pos hLit, if_pos hLit]
    dsimp only
    rw [swallow_skipTo, ← swallow_recordLine]
    congr 1
    cases hMarker : directiveTriviaToken r.directive with
    | none =>
        rfl
    | some marker =>
        have hNotLexed : ∀ token, marker ≠ .Lexed token := by
          intro token hEq
          rw [hEq] at hMarker
          cases hDirective : r.directive with
          | _ =>
              rw [hDirective] at hMarker
              cases hMarker
        dsimp only
        rw [if_neg (show ¬ (d.recordLine r).swallow.triviaMode = true
          from Bool.false_ne_true)]
        split
        · exact swallow_emitTriviaMarker hNotLexed
        · rfl
  · rw [if_neg hLit, if_neg hLit]
    exact swallow_skipTo _

theorem ccDirectiveMarker_not_lexed
    (kind : DirectiveKind)
    (token : Token) :
    ccDirectiveMarker kind ≠ .Lexed token := by
  cases kind with
  | _ =>
      exact nofun

theorem swallow_noteElif
    (c : Condition) :
    (d.noteElif c).swallow = d.swallow.noteElif c := by
  unfold noteElif
  split
  · rfl
  · rfl

theorem swallow_markCondition
    (c : Condition)
    (parentActive : Bool) :
    (d.markCondition c parentActive).swallow =
      d.swallow.markCondition c parentActive := by
  unfold markCondition
  have hQuiet : ¬ (d.swallow.triviaMode = true ∧ parentActive = true) :=
    fun h => Bool.false_ne_true h.1
  rw [if_neg hQuiet]
  split
  · exact swallow_emitTriviaMarker (ccDirectiveMarker_not_lexed c.kind)
  · rfl

theorem swallow_reportBody
    (bodyErr : Option DirectiveError)
    (parentActive : Bool) :
    (d.reportBody bodyErr parentActive).swallow =
      d.swallow.reportBody bodyErr parentActive := by
  unfold reportBody
  cases bodyErr with
  | none =>
      rfl
  | some e =>
      dsimp only
      split
      · exact swallow_queue _
      · rfl

theorem chainDiagnostic_lexed
    {parentActive : Bool}
    {elseSpan : Option Span}
    {e : Span → PreprocError} :
    lexedItems (chainDiagnostic parentActive elseSpan range e) =
      chainDiagnostic parentActive elseSpan range e := by
  unfold chainDiagnostic
  cases elseSpan with
  | none =>
      rfl
  | some prev =>
      dsimp only
      split
      · rfl
      · rfl

/- The diagnostics of a directive are in both streams. -/
theorem applyDirective_lexed
    {stack : List Frame}
    {kind : DirectiveKind}
    {exprValue : Option Bool}
    {parentActive : Bool} :
    lexedItems (applyDirective stack range kind exprValue
        parentActive).2 =
      (applyDirective stack range kind exprValue parentActive).2 := by
  cases kind with
  | If =>
      rfl
  | EndIf =>
      cases stack with
      | nil =>
          rfl
      | cons top below =>
          rfl
  | _ =>
      cases stack with
      | nil =>
          rfl
      | cons top below =>
          exact chainDiagnostic_lexed

theorem swallow_applyCondition
    (c : Condition)
    (parentActive : Bool) :
    (d.applyCondition c parentActive).swallow =
      d.swallow.applyCondition c parentActive := by
  unfold applyCondition
  split
  · rfl
  · have hQueue := @swallow_queue d (applyDirective d.stack c.range
      c.kind c.exprValue parentActive).2
    rw [applyDirective_lexed] at hQueue
    exact congrArg (fun d' : DriverCore =>
      { d' with stack := (applyDirective d.stack c.range c.kind
          c.exprValue parentActive).1 }) hQueue

theorem swallow_handleCondition
    (c : Condition) :
    (d.handleCondition c).swallow = d.swallow.handleCondition c := by
  unfold handleCondition
  dsimp only
  rw [swallow_skipTo, swallow_applyCondition, swallow_reportBody,
    swallow_markCondition, swallow_noteElif]
  rfl

theorem swallow_handleDirectiveResult
    (result : Except DirectiveError Recognised) :
    (d.handleDirectiveResult result).swallow =
      d.swallow.handleDirectiveResult result := by
  unfold handleDirectiveResult
  cases result with
  | error e =>
      exact swallow_handleCondition _
  | ok r =>
      dsimp only
      split
      · exact swallow_handleTrivia r
      · exact swallow_handleCondition _

/- Both modes read the same token. -/
theorem swallow_nextLogosToken
    (logos : Logos) :
    d.swallow.nextLogosToken logos =
      ((d.nextLogosToken logos).1,
        (d.nextLogosToken logos).2.swallow) := by
  have hFresh : d.swallow.freshLexer =
      (d.freshLexer.1, d.freshLexer.2.swallow) := by
    unfold freshLexer
    have hLexer : d.swallow.lexer = d.lexer := rfl
    have hPos : d.swallow.pos = d.pos := rfl
    rw [hLexer, hPos]
    dsimp only
    split
    · rfl
    · split
      · rfl
      · rfl
  unfold nextLogosToken
  rw [hFresh]
  generalize d.freshLexer = fresh
  rcases fresh with ⟨state, d₁⟩
  dsimp only
  cases state.iter.next logos with
  | none =>
      rfl
  | some step =>
      rfl

theorem swallow_reachEof :
    d.reachEof.swallow = d.swallow.reachEof := by
  have hItems : lexedItems d.unclosed = d.unclosed := by
    apply lexedItems_of_all
    intro item hMem
    unfold unclosed at hMem
    rcases List.mem_map.1 hMem with ⟨frame, -, rfl⟩
    rfl
  have hQueue := @swallow_queue
    (({ d with eofDone := true } : DriverCore).fillInactiveGap
      d.source.length) d.unclosed
  rw [swallow_fillInactiveGap, hItems] at hQueue
  exact congrArg (fun d' : DriverCore => { d' with stack := [] }) hQueue

end DriverCore

------------------------------------------------------------
-- Runs
------------------------------------------------------------

/- The same place of the run in swallow mode, with an empty queue. -/
def Config.swallow
    (c : Config) :
    Config :=
  ⟨({ c.core with pending := [] } : DriverCore).swallow,
    lexedItems (c.emitted ++ c.core.pending), c.finished⟩

section Runs

variable {logos : Logos} {c : Config}

/- The queue is emptied in order. -/
theorem drain_reaches
    (d : DriverCore)
    (items emitted : List CoreItem) :
    (driverMachine logos).Reaches
      ⟨{ d with pending := items }, emitted, false⟩
      ⟨{ d with pending := [] }, emitted ++ items, false⟩ := by
  induction items generalizing emitted with
  | nil =>
      rw [List.append_nil]
      exact .refl _
  | cons item items ih =>
      have hRest := ih (emitted ++ [item])
      rw [List.append_assoc, List.singleton_append] at hRest
      exact .head rfl rfl hRest

theorem Config.swallow_eq
    (d : DriverCore)
    (emitted : List CoreItem)
    (finished : Bool) :
    Config.swallow ⟨d, emitted, finished⟩ =
      ⟨{ d.swallow with pending := [] },
        lexedItems emitted ++ d.swallow.pending, finished⟩ := by
  unfold Config.swallow
  rw [lexedItems_append]
  rfl

/- A turn with an empty queue, in swallow mode. -/
theorem turn_reaches
    (hMore : c.finished = false)
    (hEmpty : c.core.pending = []) :
    (driverMachine logos).Reaches c.swallow
      (Config.after ⟨c.core.swallow, lexedItems c.emitted, false⟩
        (c.core.swallow.iterate logos)) := by
  have hSame : c.swallow =
      ⟨c.core.swallow, lexedItems c.emitted, false⟩ := by
    unfold Config.swallow
    rw [hMore, hEmpty, List.append_nil, ← hEmpty]
  rw [hSame]
  exact .head rfl rfl (.refl _)

/- A turn that queues items, and its drained counterpart. -/
theorem drained_reaches
    {d' : DriverCore}
    (hMore : c.finished = false)
    (hEmpty : c.core.pending = [])
    (hTurn : c.core.swallow.iterate logos = (.Continue, d'.swallow)) :
    (driverMachine logos).Reaches c.swallow
      (Config.swallow ⟨d', c.emitted, c.finished⟩) := by
  have hFirst := @turn_reaches logos c hMore hEmpty
  rw [hTurn] at hFirst
  have hDrain := @drain_reaches logos d'.swallow
    d'.swallow.pending (lexedItems c.emitted)
  rw [hMore, Config.swallow_eq d' c.emitted false]
  exact hFirst.trans hDrain

theorem tokenItem_lexed
    (tok : Except LexError Token)
    (span : Span) :
    lexedItems [DriverCore.tokenItem tok span] =
      [DriverCore.tokenItem tok span] := by
  cases tok with
  | ok token =>
      rfl
  | error e =>
      rfl

theorem nextLogosToken_keeps
    {d : DriverCore} :
    (d.nextLogosToken logos).2.pending = d.pending ∧
      (d.nextLogosToken logos).2.triviaMode = d.triviaMode := by
  have hFresh : d.freshLexer.2.pending = d.pending ∧
      d.freshLexer.2.triviaMode = d.triviaMode := by
    unfold DriverCore.freshLexer
    dsimp only
    split
    · exact ⟨rfl, rfl⟩
    · split
      · exact ⟨rfl, rfl⟩
      · exact ⟨rfl, rfl⟩
  unfold DriverCore.nextLogosToken
  generalize d.freshLexer = fresh at hFresh ⊢
  rcases fresh with ⟨state, d₁⟩
  dsimp only at hFresh ⊢
  cases state.iter.next logos with
  | none =>
      exact hFresh
  | some step =>
      exact hFresh

/- A token is queued in one mode and yielded in the other. -/
theorem swallow_lexHere
    (hMode : c.core.triviaMode = true)
    (hMore : c.finished = false)
    (hEmpty : c.core.pending = [])
    (hWork : c.core.swallow.iterate logos =
      c.core.swallow.lexHere logos) :
    (driverMachine logos).Reaches c.swallow
      (c.after (c.core.lexHere logos)).swallow := by
  have hFirst := @turn_reaches logos c hMore hEmpty
  have hSame : (c.core.nextLogosToken logos).2.pending = [] ∧
      (c.core.nextLogosToken logos).2.triviaMode = true := by
    rcases @nextLogosToken_keeps logos c.core with ⟨hKept, hMode'⟩
    exact ⟨hKept.trans hEmpty, hMode'.trans hMode⟩
  rw [hWork] at hFirst
  unfold DriverCore.lexHere at hFirst ⊢
  rw [DriverCore.swallow_nextLogosToken] at hFirst
  generalize c.core.nextLogosToken logos = next at hFirst hSame ⊢
  rcases next with ⟨token, d₁⟩
  dsimp only at hFirst hSame ⊢
  rcases hSame with ⟨hPending, hMode₁⟩
  have hQueue : d₁.swallow.pending = [] := by
    unfold DriverCore.swallow
    rw [hPending]
    rfl
  cases token with
  | none =>
      have hEnd : (c.after (.Finish, d₁)).swallow =
          ⟨d₁.swallow, lexedItems c.emitted, true⟩ := by
        unfold Config.after
        rw [Config.swallow_eq, hQueue, List.append_nil, ← hQueue]
      rw [hEnd]
      exact hFirst
  | some lexed =>
      rcases lexed with ⟨tok, span⟩
      dsimp only at hFirst ⊢
      rw [if_pos hMode₁]
      have hEnd : (c.after (.Continue,
          ({ d₁ with pos := span.stop } : DriverCore).cover
            (DriverCore.tokenItem tok span))).swallow =
          ⟨({ d₁ with pos := span.stop } : DriverCore).swallow,
            lexedItems c.emitted ++ [DriverCore.tokenItem tok span],
            false⟩ := by
        unfold Config.after
        dsimp only
        rw [Config.swallow_eq, DriverCore.swallow_cover,
          tokenItem_lexed, hMore]
        unfold DriverCore.queue DriverCore.swallow
        dsimp only
        rw [hPending]
        rfl
      rw [hEnd]
      exact hFirst

theorem swallow_step
    (hMode : c.core.triviaMode = true)
    (hMore : c.finished = false) :
    (driverMachine logos).Reaches c.swallow
      (c.after (c.core.iterate logos)).swallow := by
  unfold DriverCore.iterate
  cases hPending : c.core.pending with
  | cons item rest =>
      have hSame : (c.after (.Yield item,
          { c.core with pending := rest })).swallow = c.swallow := by
        unfold Config.after Config.swallow
        dsimp only
        rw [hPending, List.append_assoc, List.singleton_append]
      rw [hSame]
      exact .refl _
  | nil =>
      dsimp only
      have hIterate : c.core.swallow.iterate logos =
          c.core.swallow.work logos := by
        unfold DriverCore.iterate DriverCore.swallow
        dsimp only
        rw [hPending]
        rfl
      unfold DriverCore.work at hIterate ⊢
      have hHere : c.core.swallow.directiveHere =
          c.core.directiveHere := rfl
      have hSource : c.core.swallow.source = c.core.source := rfl
      have hPos : c.core.swallow.pos = c.core.pos := rfl
      have hEof : c.core.swallow.eofDone = c.core.eofDone := rfl
      have hActive : c.core.swallow.currentlyActive =
          c.core.currentlyActive := rfl
      rw [hHere, hSource, hPos, hEof, hActive] at hIterate
      cases hDirective : c.core.directiveHere with
      | some result =>
          rw [hDirective] at hIterate
          dsimp only at hIterate
          rw [← DriverCore.swallow_handleDirectiveResult] at hIterate
          exact drained_reaches hMore hPending hIterate
      | none =>
          rw [hDirective] at hIterate
          dsimp only at hIterate ⊢
          by_cases hEnd : c.core.source.length ≤ c.core.pos
          · rw [if_pos hEnd] at hIterate ⊢
            by_cases hDone : c.core.eofDone = true
            · rw [if_pos hDone] at hIterate ⊢
              have hFirst := @turn_reaches logos c hMore hPending
              rw [hIterate] at hFirst
              have hStop : (c.after (.Finish, c.core)).swallow =
                  ⟨c.core.swallow, lexedItems c.emitted, true⟩ := by
                unfold Config.after Config.swallow
                dsimp only
                rw [hPending, List.append_nil, ← hPending]
              rw [hStop]
              exact hFirst
            · rw [if_neg hDone] at hIterate ⊢
              rw [← DriverCore.swallow_reachEof] at hIterate
              exact drained_reaches hMore hPending hIterate
          · rw [if_neg hEnd] at hIterate ⊢
            by_cases hLit : c.core.currentlyActive = true
            · rw [if_pos hLit] at hIterate ⊢
              exact swallow_lexHere hMode hMore hPending hIterate
            · rw [if_neg hLit] at hIterate ⊢
              have hSkip := @DriverCore.swallow_skipTo c.core
                c.core.advanceToNextLineStart.pos
              apply drained_reaches hMore hPending
              exact hIterate.trans (congrArg _ hSkip.symm)

/-
  The tokens and errors of the full-trivia stream are the swallow-mode
  stream, and both modes record the same `#line` directives.
-/
theorem swallow_agrees_with_full_trivia
    (logos : Logos)
    (hTiles : logos.Tiles)
    (source : List UInt8)
    (symbols : List UInt8 → Bool) :
    ∃ m n full swallowed,
      (driverMachine logos).runFor m
        (.initial source symbols true) = .ok full ∧
      full.finished = true ∧
      (driverMachine logos).runFor n
        (.initial source symbols false) = .ok swallowed ∧
      swallowed.finished = true ∧
      swallowed.emitted.map CoreItem.lexed =
        (full.emitted.filterMap CoreItem.lexed).map some ∧
      swallowed.core.lineDirectives = full.core.lineDirectives := by
  have hStep : ∀ c c', Covered c ∧ (driverMachine logos).Reaches
        (.initial source symbols false) c.swallow →
      (driverMachine logos).done c = false →
      (driverMachine logos).step c = .ok c' →
      (Covered c' ∧ (driverMachine logos).Reaches
        (.initial source symbols false) c'.swallow) ∧
        turnsLeft c' < turnsLeft c := by
    intro c c' hInv hMore hNext
    cases hNext
    rcases Covered.step hTiles hInv.1 hMore with ⟨hInv', hLess, -⟩
    have hNext := @swallow_step logos c hInv.1.placed.mode hMore
    exact ⟨⟨hInv', hInv.2.trans hNext⟩, hLess⟩
  have hInitial : Covered (.initial source symbols true) ∧
      (driverMachine logos).Reaches (.initial source symbols false)
        (Config.initial source symbols true).swallow :=
    ⟨Covered.initial source symbols, .refl _⟩
  rcases Machine.runFor_finishes hStep hInitial with
    ⟨m, full, hRun, hDone, hInv, hReach⟩
  rcases Machine.runFor_of_reaches hReach with ⟨n, hRun'⟩
  refine ⟨m, n, full, full.swallow, hRun, hDone, hRun', hDone, ?_, rfl⟩
  rcases hInv.finished hDone with ⟨-, hEmpty⟩
  unfold Config.swallow
  dsimp only
  rw [hEmpty, List.append_nil]
  exact map_lexed_lexedItems full.emitted

/- A dead branch in front of a line feed, in both modes. -/
theorem swallow_agrees_with_full_trivia_dead_branch :
    ∃ m n full swallowed,
      (driverMachine lineFeeds).runFor m
        (.initial ("#if A\nx\n#endif\n".toList.map byte)
          (fun _ => false) true) = .ok full ∧
      full.finished = true ∧
      (driverMachine lineFeeds).runFor n
        (.initial ("#if A\nx\n#endif\n".toList.map byte)
          (fun _ => false) false) = .ok swallowed ∧
      swallowed.finished = true ∧
      swallowed.emitted.map CoreItem.lexed =
        (full.emitted.filterMap CoreItem.lexed).map some ∧
      swallowed.core.lineDirectives = full.core.lineDirectives :=
  swallow_agrees_with_full_trivia lineFeeds lineFeeds_tiles
    ("#if A\nx\n#endif\n".toList.map byte) (fun _ => false)

end Runs

end Directives

end Borzoi
