import Borzoi.Directives.Lossless

/-
  What the stack of conditions means.

  The directives read so far leave a list of open chains, each with the
  conditions of its arms in order; an `#else` is an arm that holds.  An
  arm is selected when it is the first of its chain that holds, and text
  is active when every open chain has selected its current arm.

  Main declarations:
    * `Conditional`
    * `openChains`
    * `selected`
    * `Denotes`
    * `conditional_stack_denotes`
    * `RunReads`
    * `driver_stack_denotes`
-/

namespace Borzoi

namespace Directives

open Lexer
open Program

/- What a directive does to the open chains. -/
inductive Conditional
  | opens (holds : Bool)
  | arm (holds : Bool)
  | closes
  deriving DecidableEq, Repr

/- The chains after a directive, the innermost first. -/
def openChains
    (chains : List (List Bool))
    (c : Conditional) :
    List (List Bool) :=
  match c, chains with
  | .opens holds, _ => [holds] :: chains
  | .arm _, [] => []
  | .arm holds, arms :: below => (arms ++ [holds]) :: below
  | .closes, _ => chains.tail

/- Whether the current arm is the first one that holds. -/
def selected
    (arms : List Bool) :
    Bool :=
  arms.findIdx? id == some (arms.length - 1)

/- The nested conditional's verdict on the text that follows. -/
def active
    (chains : List (List Bool)) :
    Bool :=
  chains.all selected

/- What a recognised directive line says, `none` for a bare keyword. -/
def conditionalOf
    (symbols : List UInt8 → Bool)
    (result : Except DirectiveError Recognised) :
    Option Conditional :=
  match result with
  | .ok r =>
      match r.directive with
      | .If e => some (.opens (e.eval symbols))
      | .Elif e => some (.arm (e.eval symbols))
      | .Else => some (.arm true)
      | .EndIf => some .closes
      | .NoWarn | .WarnOn | .Line _ _ => none
  | .error e =>
      if DriverCore.suppresses e then none
      else
        match e.keyword with
        | .If => some (.opens false)
        | .Elif => some (.arm false)
        | .Else => some (.arm true)
        | .EndIf => some .closes

theorem selected_singleton
    (holds : Bool) :
    selected [holds] = holds := by
  cases holds with
  | true => rfl
  | false => rfl

theorem findIdx?_id_none
    {arms : List Bool} :
    arms.findIdx? id = none ↔ arms.any id = false := by
  rw [List.findIdx?_eq_none_iff, List.any_eq_false]
  constructor
  · intro hNone x hMem hHolds
    rw [hNone x hMem] at hHolds
    cases hHolds
  · intro hNone x hMem
    exact Bool.eq_false_iff.2 (hNone x hMem)

/- A further arm is selected when it holds and none before it did. -/
theorem selected_append
    (arms : List Bool)
    (holds : Bool) :
    selected (arms ++ [holds]) = (!arms.any id && holds) := by
  unfold selected
  rw [List.findIdx?_append, List.length_append, List.length_singleton,
    Nat.add_sub_cancel]
  cases hFirst : arms.findIdx? id with
  | none =>
      rw [findIdx?_id_none.1 hFirst]
      cases holds with
      | true => simp
      | false => simp
  | some k =>
      have hLt : k < arms.length :=
        (List.findIdx?_eq_some_iff_findIdx_eq.1 hFirst).1
      have hAny : arms.any id = true := by
        rw [← Bool.not_eq_false]
        intro hNone
        rw [findIdx?_id_none.2 hNone] at hFirst
        cases hFirst
      rw [hAny, Option.some_or, Bool.not_true, Bool.false_and, beq_eq_false_iff_ne]
      intro hSame
      exact Nat.ne_of_lt hLt (Option.some.inj hSame)

/- Each frame's flags, read off its chain and the chains below it. -/
def Denotes :
    List Frame → List (List Bool) → Prop
  | [], [] => True
  | frame :: stack, arms :: below =>
      frame.armLit = (selected arms && active below) ∧
        frame.anyArmLit = (arms.any id && active below) ∧
        Denotes stack below
  | _, _ => False

variable {arms : List Bool}

section Frames

variable {stack : List Frame} {chains : List (List Bool)}

theorem Denotes.allLit_eq
    (hDenotes : Denotes stack chains) :
    allLit stack = active chains := by
  induction stack generalizing chains with
  | nil =>
      cases chains with
      | nil => rfl
      | cons _ _ => cases hDenotes
  | cons frame stack ih =>
      cases chains with
      | nil => cases hDenotes
      | cons arms below =>
          rcases hDenotes with ⟨hLit, _, hBelow⟩
          have hRest := ih hBelow
          unfold allLit active at hRest ⊢
          rw [List.all_cons, List.all_cons, hRest, hLit]
          unfold active
          rw [Bool.and_assoc, Bool.and_self]

/- A further arm of the innermost chain. -/
theorem Denotes.arm
    {frame next : Frame}
    {below : List (List Bool)}
    {holds : Bool}
    (hDenotes : Denotes (frame :: stack) (arms :: below))
    (hLit : next.armLit = (allLit stack && !frame.anyArmLit && holds))
    (hAny : next.anyArmLit = (frame.anyArmLit || next.armLit)) :
    Denotes (next :: stack) ((arms ++ [holds]) :: below) := by
  rcases hDenotes with ⟨_, hBefore, hBelow⟩
  have hParent := hBelow.allLit_eq
  refine ⟨?_, ?_, hBelow⟩
  · rw [hLit, selected_append, hParent, hBefore]
    cases active below <;> simp
  · rw [hAny, hLit, List.any_append, hParent, hBefore]
    cases active below <;> cases arms.any id <;> simp

/- The conditional of a directive with the given value. -/
def Conditional.of
    (kind : DirectiveKind)
    (value : Option Bool) :
    Conditional :=
  match kind with
  | .If => .opens (value.getD false)
  | .Elif => .arm (value.getD false)
  | .Else => .arm true
  | .EndIf => .closes

theorem Denotes.applyDirective
    {range : Span}
    {kind : DirectiveKind}
    {value : Option Bool}
    (hDenotes : Denotes stack chains) :
    Denotes
      (applyDirective stack range kind value (parentActiveFor stack kind)).1
      (openChains chains (.of kind value)) := by
  cases kind with
  | If =>
      have hActive := hDenotes.allLit_eq
      refine ⟨?_, ?_, hDenotes⟩
      · change (allLit stack && value.getD false) = _
        rw [selected_singleton, hActive, Bool.and_comm]
      · change (allLit stack && value.getD false) = _
        rw [List.any_cons, List.any_nil, Bool.or_false, hActive, Bool.and_comm]
        rfl
  | Elif =>
      cases stack with
      | nil =>
          cases chains with
          | nil => exact hDenotes
          | cons _ _ => cases hDenotes
      | cons frame stack =>
          cases chains with
          | nil => cases hDenotes
          | cons arms below => exact hDenotes.arm rfl rfl
  | Else =>
      cases stack with
      | nil =>
          cases chains with
          | nil => exact hDenotes
          | cons _ _ => cases hDenotes
      | cons frame stack =>
          cases chains with
          | nil => cases hDenotes
          | cons arms below =>
              apply hDenotes.arm
              · exact (Bool.and_true _).symm
              · rfl
  | EndIf =>
      cases stack with
      | nil =>
          cases chains with
          | nil => exact hDenotes
          | cons _ _ => cases hDenotes
      | cons frame stack =>
          cases chains with
          | nil => cases hDenotes
          | cons arms below => exact hDenotes.2.2

end Frames

/- Neither the stack nor the line bookkeeping has changed. -/
structure Undisturbed
    (d d' : DriverCore) :
    Prop where
  source : d'.source = d.source
  symbols : d'.symbols = d.symbols
  stack : d'.stack = d.stack
  lines : d'.lineDirectives = d.lineDirectives
  scanOffset : d'.lineScanOffset = d.lineScanOffset
  scanLine : d'.lineScanLine = d.lineScanLine

namespace Undisturbed

variable {d d₁ d₂ : DriverCore}

theorem refl :
    Undisturbed d d :=
  ⟨rfl, rfl, rfl, rfl, rfl, rfl⟩

theorem trans
    (hFirst : Undisturbed d d₁)
    (hSecond : Undisturbed d₁ d₂) :
    Undisturbed d d₂ :=
  ⟨hSecond.source.trans hFirst.source, hSecond.symbols.trans hFirst.symbols,
    hSecond.stack.trans hFirst.stack, hSecond.lines.trans hFirst.lines,
    hSecond.scanOffset.trans hFirst.scanOffset,
    hSecond.scanLine.trans hFirst.scanLine⟩

theorem fillInactiveGap
    (upTo : Nat) :
    Undisturbed d (d.fillInactiveGap upTo) := by
  unfold DriverCore.fillInactiveGap
  split
  · exact ⟨rfl, rfl, rfl, rfl, rfl, rfl⟩
  · exact refl

theorem cover
    (item : CoreItem) :
    Undisturbed d (d.cover item) := by
  apply (fillInactiveGap item.span.start).trans
  exact ⟨rfl, rfl, rfl, rfl, rfl, rfl⟩

theorem skipTo
    (pos : Nat) :
    Undisturbed d (d.skipTo pos) := by
  unfold DriverCore.skipTo DriverCore.invalidateLexer
  split
  · exact ⟨rfl, rfl, rfl, rfl, rfl, rfl⟩
  · exact ⟨rfl, rfl, rfl, rfl, rfl, rfl⟩

theorem noteElif
    (c : DriverCore.Condition) :
    Undisturbed d (d.noteElif c) := by
  unfold DriverCore.noteElif
  split
  · exact ⟨rfl, rfl, rfl, rfl, rfl, rfl⟩
  · exact refl

theorem markCondition
    (c : DriverCore.Condition)
    (parentActive : Bool) :
    Undisturbed d (d.markCondition c parentActive) := by
  unfold DriverCore.markCondition
  split
  · exact cover _
  · exact refl

theorem reportBody
    (bodyErr : Option DirectiveError)
    (parentActive : Bool) :
    Undisturbed d (d.reportBody bodyErr parentActive) := by
  unfold DriverCore.reportBody
  split
  · split
    · exact ⟨rfl, rfl, rfl, rfl, rfl, rfl⟩
    · exact refl
  · exact refl

theorem nextLogosToken
    (logos : Logos) :
    Undisturbed d (d.nextLogosToken logos).2 := by
  have hFresh : Undisturbed d d.freshLexer.2 := by
    unfold DriverCore.freshLexer
    dsimp only
    split
    · exact ⟨rfl, rfl, rfl, rfl, rfl, rfl⟩
    · split
      · exact refl
      · exact ⟨rfl, rfl, rfl, rfl, rfl, rfl⟩
  unfold DriverCore.nextLogosToken
  dsimp only
  split
  · apply hFresh.trans
    exact ⟨rfl, rfl, rfl, rfl, rfl, rfl⟩
  · apply hFresh.trans
    exact ⟨rfl, rfl, rfl, rfl, rfl, rfl⟩

theorem lexHere
    (logos : Logos) :
    Undisturbed d (d.lexHere logos).2 := by
  have hNext : Undisturbed d (d.nextLogosToken logos).2 :=
    nextLogosToken logos
  unfold DriverCore.lexHere
  split
  · next d₁ hToken =>
      rw [hToken] at hNext
      exact hNext
  · next tok span d₁ hToken =>
      rw [hToken] at hNext
      have hMoved : Undisturbed d { d₁ with pos := span.stop } :=
        hNext.trans ⟨rfl, rfl, rfl, rfl, rfl, rfl⟩
      dsimp only
      split
      · exact hMoved.trans (cover _)
      · exact hMoved

theorem deadLine :
    Undisturbed d d.advanceToNextLineStart.invalidateLexer :=
  skipTo d.advanceToNextLineStart.pos

end Undisturbed

section Lines

variable {d : DriverCore} {chains : List (List Bool)}

/- A conditional directive acts on the stack and on nothing else. -/
theorem handleCondition_stack
    (c : DriverCore.Condition) :
    (d.handleCondition c).stack =
        (if c.suppressState then d.stack
        else (applyDirective d.stack c.range c.kind c.exprValue
          (parentActiveFor d.stack c.kind)).1) ∧
      (d.handleCondition c).symbols = d.symbols := by
  let parentActive := parentActiveFor d.stack c.kind
  have hReported : Undisturbed d
      (((d.noteElif c).markCondition c parentActive).reportBody c.bodyErr
        parentActive) :=
    ((Undisturbed.noteElif c).trans
      (Undisturbed.markCondition c parentActive)).trans
      (Undisturbed.reportBody c.bodyErr parentActive)
  unfold DriverCore.handleCondition
  dsimp only
  rw [(Undisturbed.skipTo _).stack, (Undisturbed.skipTo _).symbols]
  unfold DriverCore.applyCondition
  split
  · exact ⟨hReported.stack, hReported.symbols⟩
  · constructor
    · change (applyDirective _ c.range c.kind c.exprValue parentActive).1 = _
      rw [hReported.stack]
    · exact hReported.symbols

theorem handleTrivia_stack
    (r : Recognised) :
    (d.handleTrivia r).stack = d.stack ∧
      (d.handleTrivia r).symbols = d.symbols := by
  have hRecorded : (d.recordLine r).stack = d.stack ∧
      (d.recordLine r).symbols = d.symbols := by
    unfold DriverCore.recordLine DriverCore.generatedLineAt
    split <;> exact ⟨rfl, rfl⟩
  unfold DriverCore.handleTrivia
  split
  · dsimp only
    rw [(Undisturbed.skipTo _).stack, (Undisturbed.skipTo _).symbols]
    split
    · split
      · rw [DriverCore.emitTriviaMarker, (Undisturbed.cover _).stack,
          (Undisturbed.cover _).symbols]
        exact hRecorded
      · exact hRecorded
    · exact hRecorded
  · exact ⟨(Undisturbed.skipTo _).stack, (Undisturbed.skipTo _).symbols⟩

/- The chains after a directive line. -/
def readLine
    (symbols : List UInt8 → Bool)
    (chains : List (List Bool))
    (result : Except DirectiveError Recognised) :
    List (List Bool) :=
  match conditionalOf symbols result with
  | some c => openChains chains c
  | none => chains

theorem Denotes.handleDirectiveResult
    (hDenotes : Denotes d.stack chains)
    (result : Except DirectiveError Recognised) :
    Denotes (d.handleDirectiveResult result).stack
        (readLine d.symbols chains result) ∧
      (d.handleDirectiveResult result).symbols = d.symbols := by
  unfold DriverCore.handleDirectiveResult readLine conditionalOf
  cases result with
  | ok r =>
      have hTrivia : Denotes (d.handleTrivia r).stack chains ∧
          (d.handleTrivia r).symbols = d.symbols := by
        rw [(handleTrivia_stack r).1]
        exact ⟨hDenotes, (handleTrivia_stack r).2⟩
      have hCondition : ∀ kind value,
          Denotes
              (d.handleCondition ⟨r.range, kind, value, none, false⟩).stack
              (openChains chains (.of kind value)) ∧
            (d.handleCondition ⟨r.range, kind, value, none, false⟩).symbols =
              d.symbols := by
        intro kind value
        rw [(handleCondition_stack _).1, (handleCondition_stack _).2]
        exact ⟨hDenotes.applyDirective, rfl⟩
      rcases r with ⟨directive, range⟩
      cases directive with
      | NoWarn => exact hTrivia
      | WarnOn => exact hTrivia
      | Line number file => exact hTrivia
      | If e => exact hCondition .If (some (e.eval d.symbols))
      | Elif e => exact hCondition .Elif (some (e.eval d.symbols))
      | Else => exact hCondition .Else none
      | EndIf => exact hCondition .EndIf none
  | error e =>
      dsimp only
      rw [(handleCondition_stack _).1, (handleCondition_stack _).2]
      dsimp only
      split
      · exact ⟨hDenotes, rfl⟩
      · cases e.keyword with
        | If => exact ⟨hDenotes.applyDirective, rfl⟩
        | Elif => exact ⟨hDenotes.applyDirective, rfl⟩
        | Else => exact ⟨hDenotes.applyDirective, rfl⟩
        | EndIf => exact ⟨hDenotes.applyDirective, rfl⟩

end Lines

------------------------------------------------------------
-- Runs
------------------------------------------------------------

section Runs

variable {source : List UInt8} {symbols : List UInt8 → Bool} {triviaMode : Bool}
variable {stack : List Frame} {chains : List (List Bool)}

theorem Denotes.length_eq
    (hDenotes : Denotes stack chains) :
    stack.length = chains.length := by
  induction stack generalizing chains with
  | nil =>
      cases chains with
      | nil => rfl
      | cons _ _ => cases hDenotes
  | cons frame stack ih =>
      cases chains with
      | nil => cases hDenotes
      | cons arms below =>
          rw [List.length_cons, List.length_cons, ih hDenotes.2.2]

/- The frame at a depth, with the frames and chains below it. -/
theorem Denotes.get
    {i : Nat}
    {frame : Frame}
    (hDenotes : Denotes stack chains)
    (hFrame : stack[i]? = some frame)
    (hArms : chains[i]? = some arms) :
    frame.armLit = (selected arms && active (chains.drop (i + 1))) ∧
      frame.anyArmLit = (arms.any id && active (chains.drop (i + 1))) ∧
      Denotes (stack.drop (i + 1)) (chains.drop (i + 1)) := by
  induction i generalizing stack chains with
  | zero =>
      cases stack with
      | nil => cases hFrame
      | cons _ _ =>
          cases chains with
          | nil => cases hArms
          | cons _ _ =>
              cases hFrame
              cases hArms
              exact hDenotes
  | succ i ih =>
      cases stack with
      | nil => cases hFrame
      | cons _ _ =>
          cases chains with
          | nil => cases hArms
          | cons _ _ => exact ih hDenotes.2.2 hFrame hArms

/- Arm `k`, while it was current, was selected when it is the first that holds. -/
theorem selected_take
    {k : Nat}
    (hLt : k < arms.length) :
    selected (arms.take (k + 1)) = true ↔ arms.findIdx? id = some k := by
  have hLength : (arms.take (k + 1)).length = k + 1 :=
    List.length_take_of_le hLt
  have hSplit : arms.findIdx? id =
      ((arms.take (k + 1)).findIdx? id).or
        (((arms.drop (k + 1)).findIdx? id).map (· + (k + 1))) := by
    rw [← hLength]
    conv_lhs => rw [← List.take_append_drop (k + 1) arms]
    rw [List.findIdx?_append, hLength]
  unfold selected
  rw [hLength, beq_iff_eq, Nat.add_sub_cancel, hSplit]
  cases hFirst : (arms.take (k + 1)).findIdx? id with
  | none =>
      rw [Option.none_or]
      constructor
      · intro hNone
        cases hNone
      · intro hLater
        rcases Option.map_eq_some_iff.1 hLater with ⟨j, _, hIndex⟩
        omega
  | some j =>
      rw [Option.some_or]

theorem foldl_denotes
    (results : List (Except DirectiveError Recognised))
    {d : DriverCore}
    (hDenotes : Denotes d.stack chains) :
    Denotes (results.foldl DriverCore.handleDirectiveResult d).stack
      (results.foldl (readLine d.symbols) chains) := by
  induction results generalizing d chains with
  | nil =>
      exact hDenotes
  | cons result results ih =>
      rcases hDenotes.handleDirectiveResult result with ⟨hNext, hSymbols⟩
      have hRest := ih hNext
      rw [hSymbols] at hRest
      exact hRest

/-
  After any directive lines, an arm is lit when it is the first of its
  chain that holds and every chain below has its arm lit; a chain lights
  no other arm; and text is active when every open chain is.
-/
theorem conditional_stack_denotes
    (source : List UInt8)
    (symbols : List UInt8 → Bool)
    (triviaMode : Bool)
    (results : List (Except DirectiveError Recognised)) :
    let d := results.foldl DriverCore.handleDirectiveResult
      (.new source symbols triviaMode)
    let chains := results.foldl (readLine symbols) []
    d.stack.length = chains.length ∧
      (∀ (i : Nat) (frame : Frame) (arms : List Bool),
        d.stack[i]? = some frame → chains[i]? = some arms →
        (frame.armLit = true → allLit (d.stack.drop (i + 1)) = true) ∧
        (frame.armLit = true ↔
          selected arms = true ∧ active (chains.drop (i + 1)) = true) ∧
        (frame.anyArmLit = true ↔
          true ∈ arms ∧ active (chains.drop (i + 1)) = true) ∧
        ∀ k, k < arms.length →
          (selected (arms.take (k + 1)) = true ↔
            arms.findIdx? id = some k)) ∧
      d.currentlyActive = active chains := by
  intro d chains
  have hDenotes : Denotes d.stack chains := by
    apply foldl_denotes results
    exact trivial
  refine ⟨hDenotes.length_eq, ?_, hDenotes.allLit_eq⟩
  intro i frame arms hFrame hArms
  rcases hDenotes.get hFrame hArms with ⟨hLit, hAny, hBelow⟩
  have hAnyMem : arms.any id = true ↔ true ∈ arms := by
    rw [List.any_eq_true]
    constructor
    · rintro ⟨x, hMem, hHolds⟩
      rw [id_eq] at hHolds
      rw [← hHolds]
      exact hMem
    · intro hMem
      exact ⟨true, hMem, rfl⟩
  refine ⟨?_, ?_, ?_, fun k hLt => selected_take hLt⟩
  · intro hTrue
    rw [hLit, Bool.and_eq_true] at hTrue
    rw [hBelow.allLit_eq]
    exact hTrue.2
  · rw [hLit, Bool.and_eq_true]
  · rw [hAny, Bool.and_eq_true, hAnyMem]

/- What a turn of the loop can read. -/
inductive Reading
  | line (result : Except DirectiveError Recognised)
  | eof

/- What the next turn reads: the directive line it stands at, or the end
   of the file when it first comes there. -/
def Config.reads
    (c : Config) :
    List Reading :=
  if c.core.pending = [] then
    match c.core.directiveHere with
    | some result => [.line result]
    | none =>
        if c.core.source.length ≤ c.core.pos ∧ c.core.eofDone = false then
          [.eof]
        else
          []
  else
    []

/- A run and what it has read. -/
inductive RunReads
    (logos : Logos)
    (start : Config) :
    Config → List Reading → Prop
  | refl :
      RunReads logos start start []
  | tail
      {c c' : Config} {readings : List Reading}
      (hRun : RunReads logos start c readings)
      (hMore : c.finished = false)
      (hStep : c.step logos = .ok c') :
      RunReads logos start c' (readings ++ c.reads)

/- The end of the file closes every chain. -/
def readNext
    (symbols : List UInt8 → Bool)
    (chains : List (List Bool))
    (reading : Reading) :
    List (List Bool) :=
  match reading with
  | .line result => readLine symbols chains result
  | .eof => []

/- A turn leaves the stack that what it reads calls for. -/
theorem Denotes.turn
    {logos : Logos}
    {c c' : Config}
    (hDenotes : Denotes c.core.stack chains)
    (hStep : c.step logos = .ok c') :
    c'.core.symbols = c.core.symbols ∧
      Denotes c'.core.stack
        (c.reads.foldl (readNext c.core.symbols) chains) := by
  cases hStep
  have hKeep : ∀ d', Undisturbed c.core d' →
      d'.symbols = c.core.symbols ∧ Denotes d'.stack chains := by
    intro d' hSame
    rw [hSame.symbols, hSame.stack]
    exact ⟨rfl, hDenotes⟩
  have hAfter : ∀ turn : Turn × DriverCore,
      (c.after turn).core = turn.2 := by
    rintro ⟨turn, d'⟩
    cases turn <;> rfl
  rw [hAfter]
  unfold DriverCore.iterate Config.reads
  cases hPending : c.core.pending with
  | cons item rest =>
      rw [if_neg (List.cons_ne_nil _ _)]
      exact hKeep _ ⟨rfl, rfl, rfl, rfl, rfl, rfl⟩
  | nil =>
      rw [if_pos rfl]
      dsimp only
      unfold DriverCore.work
      cases hHere : c.core.directiveHere with
      | some result =>
          rcases hDenotes.handleDirectiveResult result with ⟨hNext, hSame⟩
          exact ⟨hSame, hNext⟩
      | none =>
          dsimp only
          by_cases hEnd : c.core.source.length ≤ c.core.pos
          · rw [if_pos hEnd]
            cases hDone : c.core.eofDone with
            | true =>
                rw [if_pos rfl, if_neg (fun h => Bool.noConfusion h.2)]
                exact hKeep _ Undisturbed.refl
            | false =>
                rw [if_neg Bool.noConfusion, if_pos ⟨hEnd, rfl⟩]
                exact ⟨(Undisturbed.fillInactiveGap _).symbols, trivial⟩
          · have hNot : ¬ (c.core.source.length ≤ c.core.pos ∧
                c.core.eofDone = false) := fun hAt => hEnd hAt.1
            rw [if_neg hEnd, if_neg hNot]
            split
            · exact hKeep _ (Undisturbed.lexHere logos)
            · exact hKeep _ Undisturbed.deadLine

/-
  Every stack of a run is the one that the directive lines the run has
  read call for, and its text is active when the nested conditional's is.
-/
theorem driver_stack_denotes
    {logos : Logos}
    {c : Config}
    (hReach : (driverMachine logos).Reaches
      (.initial source symbols triviaMode) c) :
    c.core.symbols = symbols ∧
      (∃ readings,
        RunReads logos (.initial source symbols triviaMode) c readings) ∧
      ∀ readings,
        RunReads logos (.initial source symbols triviaMode) c readings →
          Denotes c.core.stack (readings.foldl (readNext symbols) []) ∧
            c.core.currentlyActive =
              active (readings.foldl (readNext symbols) []) := by
  have hRuns : ∀ c readings,
      RunReads logos (.initial source symbols triviaMode) c readings →
        c.core.symbols = symbols ∧
          Denotes c.core.stack (readings.foldl (readNext symbols) []) := by
    intro c readings hRun
    induction hRun with
    | refl => exact ⟨rfl, trivial⟩
    | @tail c c' readings _ _ hStep ih =>
        rcases ih.2.turn hStep with ⟨hSymbols, hNext⟩
        rw [ih.1] at hSymbols hNext
        rw [List.foldl_append]
        exact ⟨hSymbols, hNext⟩
  have hSome : ∃ readings,
      RunReads logos (.initial source symbols triviaMode) c readings := by
    induction hReach with
    | refl => exact ⟨[], .refl⟩
    | tail _ hMore hStep ih =>
        rcases ih with ⟨readings, hRun⟩
        exact ⟨_, hRun.tail hMore hStep⟩
  refine ⟨?_, hSome, ?_⟩
  · rcases hSome with ⟨readings, hRun⟩
    exact (hRuns c readings hRun).1
  · intro readings hRun
    have hDenotes := (hRuns c readings hRun).2
    exact ⟨hDenotes, hDenotes.allLit_eq⟩

/- An `#if` whose symbol is not defined. -/
theorem driver_stack_denotes_dead_branch :
    let start := Config.initial ("#if A\n".toList.map byte) (fun _ => false) true
    let c := start.after (start.core.iterate fun _ _ => none)
    start.reads.length = 1 ∧ c.core.stack.length = 1 ∧
      c.core.symbols = (fun _ => false) ∧
      Denotes c.core.stack
          (start.reads.foldl (readNext fun _ => false) []) ∧
        c.core.currentlyActive =
          active (start.reads.foldl (readNext fun _ => false) []) := by
  refine ⟨by decide, by decide, ?_⟩
  let logos : Logos := fun _ _ => none
  rcases @driver_stack_denotes _ _ _ logos _ (.tail (.refl _) rfl rfl) with
    ⟨hSymbols, -, hAll⟩
  exact ⟨hSymbols, hAll _ (.tail .refl rfl rfl)⟩

end Runs

end Directives

end Borzoi
