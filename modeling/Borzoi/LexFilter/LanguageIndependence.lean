import Borzoi.LexFilter.Lockstep
import Borzoi.LexFilter.Stream

/-
  A run that never raises the shape flag does not depend on the
  language version.

  Two states that agree on their cores answer every operation alike
  until an offside version-gated push, and there the flag goes up.
  The flag is never lowered.

  Main declarations:
    * `SameCore`
    * `Shapeless`
    * `op_lockstep`
    * `filterCollect_sameRun`
    * `filterCollect_language_independent`
-/

namespace Borzoi

namespace LexFilter

open Lexer
open Program

/- The states differ at most in what the version decides. -/
def SameCore
    (s s' : Filter) :
    Prop :=
  s.toCore = s'.toCore

/- The shape flag is down. -/
def Shapeless
    (s : Filter) :
    Prop :=
  s.shapeDependsOnLanguageVersion = false

variable {ctxt : Context} {s t : Core} {β : Type} {b : β}

theorem shapeFlag_of_cursorMoved
    (hMove : s.CursorMoved t) :
    t.shapeDependsOnLanguageVersion =
      s.shapeDependsOnLanguageVersion := by
  rw [hMove]
  rfl

/- No operation on the core touches the flag. -/
theorem shapeFlag_coreOp
    {o : CoreOp β}
    (hExec : o.exec s = .ok (b, t)) :
    t.shapeDependsOnLanguageVersion =
      s.shapeDependsOnLanguageVersion := by
  cases o with
  | pullRaw =>
      exact shapeFlag_of_cursorMoved (Core.pullRaw_frame hExec)
  | peekNextTokenTup =>
      rcases Core.peekNextTokenTup_cases hExec with
        ⟨_, _, _, _, rfl⟩ | ⟨_, _, hPull⟩ | ⟨_, u, _, _, hPull, rfl⟩
      · rfl
      · exact shapeFlag_of_cursorMoved (Core.pullRaw_frame hPull)
      · exact shapeFlag_of_cursorMoved
          (t := u) (Core.pullRaw_frame hPull)
  | popNextTokenTup =>
      rcases Core.popNextTokenTup_cases hExec with
        ⟨_, _, _, _, rfl⟩ | ⟨_, hPull⟩
      · rfl
      · exact shapeFlag_of_cursorMoved (Core.pullRaw_frame hPull)
  | popCtxt =>
      simp only [CoreOp.exec, Core.popCtxt, Except.ok.injEq] at hExec
      split at hExec
      · simp only [Prod.mk.injEq] at hExec
        rw [← hExec.2]
      · simp only [Prod.mk.injEq] at hExec
        rw [← hExec.2]
  | panic p =>
      cases hExec
  | _ =>
      simp only [CoreOp.exec, Except.ok.injEq, Prod.mk.injEq] at hExec
      rcases hExec with ⟨-, rfl⟩
      rfl

/- A push leaves the flag alone. -/
theorem shapeFlag_pushContext
    (hPush : s.pushContext ctxt = .ok t) :
    t.shapeDependsOnLanguageVersion =
      s.shapeDependsOnLanguageVersion := by
  unfold Core.pushContext at hPush
  split at hPush
  · cases hPush
  · split at hPush
    · cases hPush
    · simp only [Except.ok.injEq] at hPush
      rw [← hPush]

/- An operation that ends with the flag down started with it down. -/
theorem shapeless_of_op
    (o : Op β)
    {s t : Filter}
    (hExec : Op.exec β o s = .ok (b, t))
    (hEnd : Shapeless t) :
    Shapeless s := by
  unfold Shapeless at *
  cases o with
  | core o =>
      simp only [Op.exec] at hExec
      split at hExec
      · next hCore =>
          simp only [Except.ok.injEq, Prod.mk.injEq] at hExec
          rw [← hExec.2] at hEnd
          rw [← shapeFlag_coreOp hCore]
          exact hEnd
      · cases hExec
  | version o =>
      cases o with
      | tryPushCtxt strictness ignoreIndent anchorIsEof trigger ctxt =>
          rcases Filter.tryPushCtxt_cases hExec with
            ⟨fault, -, hCases⟩
          have hReport : ((s.reportFault trigger fault).raiseShapeFlag
              strictness fault).shapeDependsOnLanguageVersion = false →
              s.shapeDependsOnLanguageVersion = false := by
            unfold Filter.raiseShapeFlag
            split
            · intro hRaised
              cases hRaised
            · simp
          rcases hCases with
            ⟨-, -, -, rfl⟩ | ⟨-, -, core, hPush, rfl⟩
          · exact hReport hEnd
          · apply hReport
            rw [← shapeFlag_pushContext hPush]
            exact hEnd
      | checkInvalidDeclInTypeDefn keyword tok =>
          simp only [Op.exec, VersionOp.exec, Except.ok.injEq,
            Prod.mk.injEq] at hExec
          rw [← hExec.2] at hEnd
          unfold Filter.checkInvalidDeclInTypeDefn at hEnd
          split at hEnd <;> exact hEnd

/- Raising the flag needs the core only. -/
theorem raiseShapeFlag_toCore
    (s : Filter)
    (strictness : PushStrictness)
    (fault : Option OffsideMessage) :
    (s.raiseShapeFlag strictness fault).toCore =
      match strictness, fault with
      | .VersionGated, some _ =>
          { s.toCore with shapeDependsOnLanguageVersion := true }
      | _, _ => s.toCore := by
  cases strictness <;> cases fault <;> rfl

/-
  A push that leaves the flag down is not refused: a refused push is
  version-gated and offside.
-/
theorem tryPushCtxt_lockstep
    {s s' t : Filter}
    {strictness : PushStrictness}
    {ignoreIndent anchorIsEof : Bool}
    {trigger : Span}
    {pushed : Bool}
    (hSame : SameCore s s')
    (hPush : s.tryPushCtxt strictness ignoreIndent anchorIsEof trigger
      ctxt = .ok (pushed, t))
    (hEnd : Shapeless t) :
    ∃ t', s'.tryPushCtxt strictness ignoreIndent anchorIsEof trigger
        ctxt = .ok (pushed, t') ∧ SameCore t t' := by
  unfold SameCore at hSame
  rcases Filter.tryPushCtxt_cases hPush with ⟨fault, hIndent, hCases⟩
  -- the two runs find the same fault
  have hIndent' : s'.isCorrectIndent ignoreIndent anchorIsEof ctxt =
      .ok fault := by
    rw [← hSame]
    exact hIndent
  have hRaised : ((s'.reportFault trigger fault).raiseShapeFlag
      strictness fault).toCore =
        ((s.reportFault trigger fault).raiseShapeFlag
          strictness fault).toCore := by
    simp only [raiseShapeFlag_toCore, Filter.reportFault_toCore, hSame]
  -- an offside version-gated push would have raised the flag
  have hOpen : ∀ f : Filter,
      (f.refusesOffside strictness && fault.isSome) = false := by
    intro f
    cases strictness with
    | AlwaysLenient =>
        rfl
    | VersionGated =>
        cases fault with
        | none =>
            simp
        | some message =>
            exfalso
            rcases hCases with
              ⟨-, -, -, rfl⟩ | ⟨-, -, core, hCore, rfl⟩
            · cases hEnd
            · have hFlag := shapeFlag_pushContext hCore
              unfold Shapeless at hEnd
              rw [hFlag] at hEnd
              cases hEnd
  rcases hCases with
    ⟨-, hRefused, hFault, -⟩ | ⟨rfl, -, core, hCore, rfl⟩
  · have hOpenHere := hOpen s
    rw [hRefused, hFault] at hOpenHere
    cases hOpenHere
  · refine ⟨{ (s'.reportFault trigger fault).raiseShapeFlag strictness
        fault with toCore := core }, ?_, rfl⟩
    unfold Filter.tryPushCtxt
    rw [hIndent']
    simp only [hOpen s', hRaised, hCore, Bool.false_eq_true, if_false]

/- States with the same core answer every operation alike. -/
theorem op_lockstep
    (o : Op β)
    {s s' t : Filter}
    (hSame : SameCore s s')
    (hExec : Op.exec β o s = .ok (b, t))
    (hEnd : Shapeless t) :
    ∃ t', Op.exec β o s' = .ok (b, t') ∧ SameCore t t' := by
  cases o with
  | core o =>
      simp only [Op.exec] at hExec
      split at hExec
      · next b' u hCore =>
          simp only [Except.ok.injEq, Prod.mk.injEq] at hExec
          rcases hExec with ⟨rfl, rfl⟩
          refine ⟨{ s' with toCore := u }, ?_, rfl⟩
          simp only [Op.exec]
          rw [← hSame, hCore]
      · cases hExec
  | version o =>
      cases o with
      | tryPushCtxt strictness ignoreIndent anchorIsEof trigger ctxt =>
          exact tryPushCtxt_lockstep hSame hExec hEnd
      | checkInvalidDeclInTypeDefn keyword tok =>
          simp only [Op.exec, VersionOp.exec, Except.ok.injEq,
            Prod.mk.injEq] at hExec
          rcases hExec with ⟨-, rfl⟩
          refine ⟨s'.checkInvalidDeclInTypeDefn keyword tok, rfl, ?_⟩
          unfold SameCore Filter.checkInvalidDeclInTypeDefn
          split <;> split <;> exact hSame

/- Up to an end with the flag down the cores go together. -/
theorem shapeless_lockstep :
    Lockstep SameCore Shapeless where
  initialized := fun hSame => by rw [hSame]
  clean := fun o _ _ _ hExec hEnd => shapeless_of_op o hExec hEnd
  op := fun o _ _ _ _ hSame hExec hEnd => op_lockstep o hSame hExec hEnd

/- Configurations that differ at most in what the version decides. -/
structure SameRun
    (c c' : Config) :
    Prop where
  phase : c.phase = c'.phase
  emitted : c.emitted = c'.emitted
  core : SameCore c.filter c'.filter

/- A run that ends with the flag down has the same run beside it. -/
theorem filterCollect_sameRun
    {source : List UInt8}
    {raw : List RawItem}
    {fuel : Nat}
    {v₁ : LanguageVersion}
    {run₁ : FilterRun}
    (v₂ : LanguageVersion)
    (hRun : filterCollect fuel source v₁ raw = .ok (some run₁))
    (hFlag : run₁.shapeDependsOnLanguageVersion = false) :
    ∃ c c' : Config, c.result = run₁ ∧
      filterCollect fuel source v₂ raw = .ok (some c'.result) ∧
      SameRun c c' := by
  have hEnd : ∀ c : Config, c.result = run₁ → Shapeless c.filter := by
    intro c hResult
    rw [← hResult] at hFlag
    exact hFlag
  have hStart : SameCore (Filter.new source v₁ raw)
      (Filter.new source v₂ raw) :=
    rfl
  rcases shapeless_lockstep.filterCollect hStart hRun hEnd with
    ⟨c, c', hResult, hRun', hPaired⟩
  exact ⟨c, c', hResult, hRun', hPaired.phase, hPaired.emitted,
    hPaired.filter⟩

/-
  If the run under one version completes with the shape flag down,
  the run under any other version completes with the flag down and
  emits the same tokens.
-/
theorem filterCollect_language_independent
    (source : List UInt8)
    (raw : List RawItem)
    (v₁ v₂ : LanguageVersion)
    (fuel : Nat)
    (run₁ : FilterRun)
    (hRun : filterCollect fuel source v₁ raw = .ok (some run₁))
    (hFlag : run₁.shapeDependsOnLanguageVersion = false) :
    ∃ run₂, filterCollect fuel source v₂ raw = .ok (some run₂) ∧
      run₂.shapeDependsOnLanguageVersion = false ∧
      run₂.tokens = run₁.tokens := by
  rcases filterCollect_sameRun v₂ hRun hFlag with
    ⟨c, c', hResult, hRun', hSame⟩
  subst hResult
  refine ⟨c'.result, hRun', ?_, hSame.emitted.symm⟩
  have hFlag' : c.filter.shapeDependsOnLanguageVersion =
      c'.filter.shapeDependsOnLanguageVersion := by
    rw [hSame.core]
  rw [Config.result, ← hFlag']
  exact hFlag

/- `let x` under F# 8 and F# 7. -/
theorem filterCollect_language_independent_let :
    ∃ run₁ run₂,
      filterCollect 20 [108, 101, 116, 32, 120] .V8_0
          [⟨.ok .Let, ⟨0, 3⟩⟩, ⟨.ok .Whitespace, ⟨3, 4⟩⟩,
            ⟨.ok (.Ident ['x']), ⟨4, 5⟩⟩] = .ok (some run₁) ∧
        filterCollect 20 [108, 101, 116, 32, 120] .V7_0
          [⟨.ok .Let, ⟨0, 3⟩⟩, ⟨.ok .Whitespace, ⟨3, 4⟩⟩,
            ⟨.ok (.Ident ['x']), ⟨4, 5⟩⟩] = .ok (some run₂) ∧
        run₂.tokens = run₁.tokens := by
  have hFlag : ∀ run₁, filterCollect 20 [108, 101, 116, 32, 120] .V8_0
      [⟨.ok .Let, ⟨0, 3⟩⟩, ⟨.ok .Whitespace, ⟨3, 4⟩⟩,
        ⟨.ok (.Ident ['x']), ⟨4, 5⟩⟩] = .ok (some run₁) →
      run₁.shapeDependsOnLanguageVersion = false := by
    intro run₁ hRun
    cases hRun
    rfl
  cases hRun : filterCollect 20 [108, 101, 116, 32, 120] .V8_0
      [⟨.ok .Let, ⟨0, 3⟩⟩, ⟨.ok .Whitespace, ⟨3, 4⟩⟩,
        ⟨.ok (.Ident ['x']), ⟨4, 5⟩⟩] with
  | error e =>
      cases hRun
  | ok result =>
      cases result with
      | none =>
          cases hRun
      | some run₁ =>
          rcases filterCollect_language_independent _ _ .V8_0 .V7_0 20
            run₁ hRun (hFlag run₁ hRun) with ⟨run₂, hRun₂, -, hTokens⟩
          exact ⟨run₁, run₂, rfl, hRun₂, hTokens⟩

end LexFilter

end Borzoi
