import Borzoi.LexFilter.Fetch
import Borzoi.LexFilter.Stream

/-
  The skip links stay in step with the offside stack.

  Main declarations:
    * `Synced`
    * `Passes`
    * `passes_invariant`
    * `skip_cache_agrees_with_plain_walk`
-/

namespace Borzoi

namespace LexFilter

open Lexer
open Program

/-
  The filter states a run passes through: between two steps, and
  between any two operations inside a step.
-/
inductive Passes
    (c₀ : Config) :
    Filter → Prop
  | between
      {c : Config}
      (hReach : filterMachine.Reaches c₀ c) :
      Passes c₀ c.filter
  | starting
      {c : Config}
      {s : Filter}
      (hReach : filterMachine.Reaches c₀ c)
      (hPhase : c.phase = .Next)
      (hVisit : Prog.Visits Op.exec peekInitial c.filter s) :
      Passes c₀ s
  | fetching
      {c : Config}
      {s : Filter}
      {useBlockRule : Bool}
      (hReach : filterMachine.Reaches c₀ c)
      (hPhase : c.phase = .Fetching useBlockRule)
      (hVisit : Prog.Visits Op.exec (fetchIteration useBlockRule)
        c.filter s) :
      Passes c₀ s

variable {Inv : Filter → Prop}

/- What every operation preserves, a step preserves. -/
theorem step_preserves
    (hOp : ∀ β (o : Op β) s b t,
      Inv s → Op.exec β o s = .ok (b, t) → Inv t)
    {c c' : Config}
    (hInv : Inv c.filter)
    (hStep : c.step = .ok c') :
    Inv c'.filter := by
  unfold Config.step at hStep
  split at hStep
  · split at hStep
    · next s hStart =>
        simp only [Except.ok.injEq] at hStep
        rw [← hStep]
        unfold startNext at hStart
        split at hStart
        · simp only [Except.ok.injEq] at hStart
          rw [← hStart]
          exact hInv
        · split at hStart
          · next hRun =>
              simp only [Except.ok.injEq] at hStart
              rw [← hStart]
              exact Prog.run_preserves hOp hRun hInv
          · cases hStart
    · cases hStep
  · split at hStep
    · next fetched s hRun =>
        have hMid : Inv s := Prog.run_preserves hOp hRun hInv
        unfold afterIteration at hStep
        split at hStep
        · simp only [Except.ok.injEq] at hStep
          rw [← hStep]
          exact hMid
        · simp only [Except.ok.injEq] at hStep
          rw [← hStep]
          exact hMid
        · split at hStep
          · next hEnd =>
              simp only [Except.ok.injEq] at hStep
              rw [← hStep]
              exact Prog.run_preserves hOp hEnd hMid
          · next hEnd =>
              simp only [Except.ok.injEq] at hStep
              rw [← hStep]
              exact Prog.run_preserves hOp hEnd hMid
          · cases hStep
    · cases hStep
  · simp only [Except.ok.injEq] at hStep
    rw [← hStep]
    exact hInv

/- What every operation preserves holds wherever a run passes. -/
theorem passes_invariant
    (hOp : ∀ β (o : Op β) s b t,
      Inv s → Op.exec β o s = .ok (b, t) → Inv t)
    {c₀ : Config}
    {s : Filter}
    (hPass : Passes c₀ s)
    (hInv : Inv c₀.filter) :
    Inv s := by
  have hBetween : ∀ c, filterMachine.Reaches c₀ c →
      Inv c.filter := by
    intro c hReach
    have hKeeps : ∀ d d' : Config, Inv d.filter →
        filterMachine.done d = false →
        filterMachine.step d = .ok d' → Inv d'.filter :=
      fun d d' hd _ hStep => step_preserves hOp hd hStep
    exact Machine.reaches_invariant hKeeps hReach hInv
  cases hPass with
  | between hReach =>
      exact hBetween _ hReach
  | starting hReach _ hVisit =>
      exact Prog.visits_invariant hOp hVisit (hBetween _ hReach)
  | fetching hReach _ hVisit =>
      exact Prog.visits_invariant hOp hVisit (hBetween _ hReach)

/- The links are those recomputed from the stack. -/
def Synced
    (s : Core) :
    Prop :=
  s.undentationSkip = buildSkip s.offsideStack

theorem Synced.of_cursorMoved
    {s t : Core}
    (hSync : Synced s)
    (hMove : s.CursorMoved t) :
    Synced t := by
  rw [hMove]
  exact hSync

/- Pushing a context keeps the links in step. -/
theorem Synced.pushContext
    {s t : Core}
    {ctxt : Context}
    (hSync : Synced s)
    (hPush : s.pushContext ctxt = .ok t) :
    Synced t := by
  unfold Core.pushContext at hPush
  split at hPush
  · cases hPush
  · rcases skipEntry_buildSkip ctxt s.offsideStack with
      ⟨entry, hEntry, hBuild⟩
    rw [hSync, hEntry] at hPush
    simp only [Except.ok.injEq] at hPush
    rw [← hPush]
    exact hBuild.symm

/- Popping a context keeps the links in step. -/
theorem Synced.popCtxt
    {s : Core}
    (hSync : Synced s) :
    Synced s.popCtxt.2 := by
  unfold Core.popCtxt
  split
  · exact hSync
  · next ctxt rest hStack =>
      unfold Synced at *
      rw [hStack] at hSync
      simp [hSync, buildSkip]

/- Every operation on the core keeps the links in step. -/
theorem Synced.coreOp
    {β : Type}
    {o : CoreOp β}
    {s t : Core}
    {b : β}
    (hSync : Synced s)
    (hExec : o.exec s = .ok (b, t)) :
    Synced t := by
  cases o with
  | pullRaw =>
      exact hSync.of_cursorMoved (Core.pullRaw_frame hExec)
  | peekNextTokenTup =>
      rcases Core.peekNextTokenTup_cases hExec with
        ⟨_, _, _, _, rfl⟩ | ⟨_, _, hPull⟩ | ⟨_, u, _, _, hPull, rfl⟩
      · exact hSync
      · exact hSync.of_cursorMoved (Core.pullRaw_frame hPull)
      · have hPulled : Synced u :=
          hSync.of_cursorMoved (Core.pullRaw_frame hPull)
        exact hPulled
  | popNextTokenTup =>
      rcases Core.popNextTokenTup_cases hExec with
        ⟨_, _, _, _, rfl⟩ | ⟨_, hPull⟩
      · exact hSync
      · exact hSync.of_cursorMoved (Core.pullRaw_frame hPull)
  | popCtxt =>
      simp only [CoreOp.exec, Except.ok.injEq] at hExec
      have hPop := hSync.popCtxt
      rw [hExec] at hPop
      exact hPop
  | panic p =>
      cases hExec
  | _ =>
      simp only [CoreOp.exec, Except.ok.injEq, Prod.mk.injEq] at hExec
      rw [← hExec.2]
      exact hSync

/- Every operation keeps the links in step. -/
theorem Synced.op
    {β : Type}
    {o : Op β}
    {s t : Filter}
    {b : β}
    (hSync : Synced s.toCore)
    (hExec : Op.exec β o s = .ok (b, t)) :
    Synced t.toCore := by
  cases o with
  | core o =>
      simp only [Op.exec] at hExec
      split at hExec
      · next hCore =>
          simp only [Except.ok.injEq, Prod.mk.injEq] at hExec
          rw [← hExec.2]
          exact hSync.coreOp hCore
      · cases hExec
  | version o =>
      cases o with
      | tryPushCtxt strictness ignoreIndent anchorIsEof trigger ctxt =>
          rcases Filter.tryPushCtxt_cases hExec with
            ⟨fault, -, hCases⟩
          have hReport : Synced ((s.reportFault trigger fault
              ).raiseShapeFlag strictness fault).toCore := by
            unfold Filter.raiseShapeFlag
            split
            · simpa [Synced] using hSync
            · simpa using hSync
          rcases hCases with
            ⟨-, -, -, rfl⟩ | ⟨-, -, core, hPush, rfl⟩
          · exact hReport
          · exact hReport.pushContext hPush
      | checkInvalidDeclInTypeDefn keyword tok =>
          simp only [Op.exec, VersionOp.exec, Except.ok.injEq,
            Prod.mk.injEq] at hExec
          rw [← hExec.2]
          unfold Filter.checkInvalidDeclInTypeDefn
          split <;> exact hSync

/-
  Wherever a run passes, the links are the recomputed ones and the
  walk through them finds the limit of the jump-free walk.
-/
theorem skip_cache_agrees_with_plain_walk
    (source : List UInt8)
    (lang : LanguageVersion)
    (raw : List RawItem)
    (s : Filter)
    (hPass : Passes (.initial source lang raw) s) :
    s.undentationSkip = buildSkip s.offsideStack ∧
      ∀ strict newCtxt, ∃ limit,
        undentationLimit strict newCtxt s.offsideStack
            s.undentationSkip = .ok limit ∧
          undentationLimitReference strict newCtxt s.offsideStack =
            .ok limit := by
  have hOps : ∀ β (o : Op β) (s : Filter) b (t : Filter),
      Synced s.toCore → Op.exec β o s = .ok (b, t) →
        Synced t.toCore :=
    fun _ _ _ _ _ hs hExec => hs.op hExec
  have hSync : Synced s.toCore := passes_invariant hOps hPass rfl
  refine ⟨hSync, ?_⟩
  intro strict newCtxt
  rcases undentationLimitReference_ok strict newCtxt
    s.offsideStack with ⟨limit, hLimit, -⟩
  refine ⟨limit, ?_, hLimit⟩
  rw [hSync, undentationLimit_eq_reference]
  exact hLimit

/- The state after the opening paren of a one-token file, and the limit
   for a further paren there. -/
theorem skip_cache_agrees_after_paren :
    ∃ s : Filter,
      Passes (.initial [40] .V8_0 [⟨.ok .LParen, ⟨0, 1⟩⟩]) s ∧
        s.offsideStack.length = 3 ∧
        s.undentationSkip = buildSkip s.offsideStack ∧
        ∃ limit,
          undentationLimit true (.Paren ⟨1, 1⟩ .Paren) s.offsideStack
              s.undentationSkip = .ok limit ∧
            undentationLimitReference true (.Paren ⟨1, 1⟩ .Paren)
              s.offsideStack = .ok limit := by
  cases hRun : filterMachine.runFor 3
      (.initial [40] .V8_0 [⟨.ok .LParen, ⟨0, 1⟩⟩]) with
  | error e =>
      cases hRun
  | ok c =>
      have hPass : Passes
          (.initial [40] .V8_0 [⟨.ok .LParen, ⟨0, 1⟩⟩]) c.filter :=
        .between (Machine.reaches_of_runFor hRun)
      have hAgrees := skip_cache_agrees_with_plain_walk _ _ _ _ hPass
      refine ⟨c.filter, hPass, ?_, hAgrees.1, hAgrees.2 true _⟩
      cases hRun
      rfl

end LexFilter

end Borzoi
