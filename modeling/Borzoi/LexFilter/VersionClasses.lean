import Borzoi.LexFilter.LanguageIndependence

/-
  The filter under two versions of one indentation rule.

  A version decides whether an offside push is refused and whether
  nested declarations are reported.  The second decision changes the
  diagnostics only.
-/

namespace Borzoi

namespace LexFilter

open Lexer
open Program

/- The severity of every diagnostic under the indentation rule. -/
def severityOf
    (strict : Bool) :
    OffsideSeverity :=
  if strict then .Error else .Warning

/-
  An operation keeps what the version decides.  It reports nothing, an
  offside push, or, where they are reported, a nested declaration.
-/
inductive Reported
    (s t : Filter) :
    Prop
  | nothing
      (hDiagnostics : t.diagnostics = s.diagnostics)
      (hFlag : t.shapeDependsOnLanguageVersion =
        s.shapeDependsOnLanguageVersion)
  | offside
      (message : OffsideMessage)
      (trigger : Span)
      (hDiagnostics : t.diagnostics = s.diagnostics ++
        [⟨message, trigger, severityOf s.strictIndentationIsError⟩])
  | nested
      (keyword : NestedDeclKeyword)
      (span : Span)
      (hReports : s.reportsInvalidDeclsInType = true)
      (hDiagnostics : t.diagnostics = s.diagnostics ++
        [⟨.NestedDecl keyword, span, .Error⟩])

variable {anchorIsEof ignoreIndent pushed : Bool} {ctxt : Context}
variable {s s' t : Filter} {run : FilterRun} {v : LanguageVersion}
variable {raw : List RawItem} {source : List UInt8} {fuel : Nat}
variable {strictness : PushStrictness} {trigger : Span}

theorem tryPushCtxt_reported
    (hPush : s.tryPushCtxt strictness ignoreIndent anchorIsEof trigger
      ctxt = .ok (pushed, t)) :
    t.strictIndentationIsError = s.strictIndentationIsError ∧
      t.reportsInvalidDeclsInType = s.reportsInvalidDeclsInType ∧
      Reported s t := by
  rcases Filter.tryPushCtxt_cases hPush with ⟨fault, -, hCases⟩
  cases fault with
  | none =>
      have hSame : (s.reportFault trigger none).raiseShapeFlag strictness
          none = s := by
        cases strictness <;> rfl
      rw [hSame] at hCases
      rcases hCases with ⟨-, -, -, rfl⟩ | ⟨-, -, core, hCore, rfl⟩
      · exact ⟨rfl, rfl, .nothing rfl rfl⟩
      · exact ⟨rfl, rfl, .nothing rfl (shapeFlag_pushContext hCore)⟩
  | some message =>
      have hRaised : ∀ f : Filter,
          (f.raiseShapeFlag strictness (some message)).diagnostics =
            f.diagnostics ∧
          (f.raiseShapeFlag strictness
            (some message)).strictIndentationIsError =
              f.strictIndentationIsError ∧
          (f.raiseShapeFlag strictness
            (some message)).reportsInvalidDeclsInType =
              f.reportsInvalidDeclsInType := by
        intro f
        cases strictness <;> exact ⟨rfl, rfl, rfl⟩
      rcases hRaised (s.reportFault trigger (some message)) with
        ⟨hDiagnostics, hStrict, hReports⟩
      rcases hCases with ⟨-, -, -, rfl⟩ | ⟨-, -, core, -, rfl⟩
      · exact ⟨hStrict, hReports, .offside message trigger hDiagnostics⟩
      · exact ⟨hStrict, hReports, .offside message trigger hDiagnostics⟩

theorem op_reported
    {β : Type}
    (o : Op β)
    {b : β}
    (hExec : Op.exec β o s = .ok (b, t)) :
    t.strictIndentationIsError = s.strictIndentationIsError ∧
      t.reportsInvalidDeclsInType = s.reportsInvalidDeclsInType ∧
      Reported s t := by
  cases o with
  | core o =>
      simp only [Op.exec] at hExec
      split at hExec
      · next hCore =>
          simp only [Except.ok.injEq, Prod.mk.injEq] at hExec
          rcases hExec with ⟨-, rfl⟩
          exact ⟨rfl, rfl, .nothing rfl (shapeFlag_coreOp hCore)⟩
      · cases hExec
  | version o =>
      cases o with
      | tryPushCtxt strictness ignoreIndent anchorIsEof trigger ctxt =>
          exact tryPushCtxt_reported hExec
      | checkInvalidDeclInTypeDefn keyword tok =>
          simp only [Op.exec, VersionOp.exec, Except.ok.injEq,
            Prod.mk.injEq] at hExec
          rcases hExec with ⟨-, rfl⟩
          unfold Filter.checkInvalidDeclInTypeDefn
          split
          · next hInvalid =>
              rw [Bool.and_eq_true] at hInvalid
              exact ⟨rfl, rfl, .nested keyword tok.span hInvalid.1 rfl⟩
          · exact ⟨rfl, rfl, .nothing rfl rfl⟩

/- A run that raises the flag reports an offside push. -/
theorem filterCollect_flag_reported
    (hRun : filterCollect fuel source v raw = .ok (some run))
    (hNone : run.diagnostics = []) :
    run.shapeDependsOnLanguageVersion = false := by
  have hOp : ∀ {β : Type} (o : Op β) {s : Filter} {b : β} {t : Filter},
      (s.diagnostics = [] → s.shapeDependsOnLanguageVersion = false) →
      Op.exec β o s = .ok (b, t) →
      t.diagnostics = [] → t.shapeDependsOnLanguageVersion = false := by
    intro β o s b t hInv hExec hEmpty
    rcases (op_reported o hExec).2.2 with
      ⟨hDiagnostics, hFlag⟩ | ⟨message, trigger, hDiagnostics⟩ |
        ⟨keyword, span, -, hDiagnostics⟩
    · rw [hFlag]
      apply hInv
      rw [← hDiagnostics]
      exact hEmpty
    · rw [hDiagnostics] at hEmpty
      exact absurd hEmpty (by simp)
    · rw [hDiagnostics] at hEmpty
      exact absurd hEmpty (by simp)
  have hStart : (Filter.new source v raw).diagnostics = [] →
      (Filter.new source v raw).shapeDependsOnLanguageVersion = false :=
    fun _ => rfl
  rcases filterCollect_invariant hOp hStart hRun with ⟨c, hResult, hInv⟩
  subst hResult
  exact hInv hNone

/- The version settles the severity of all diagnostics of a run. -/
structure Graded
    (v : LanguageVersion)
    (s : Filter) :
    Prop where
  strict : s.strictIndentationIsError = v.strictIndentationIsError
  reports : s.reportsInvalidDeclsInType =
    v.reportsInvalidDeclsInTypeDefinitions
  graded : ∀ d ∈ s.diagnostics,
    d.severity = severityOf v.strictIndentationIsError

/- Nested declarations are reported under the strict rule only. -/
theorem strict_of_reports
    (hReports : v.reportsInvalidDeclsInTypeDefinitions = true) :
    v.strictIndentationIsError = true := by
  cases v <;> first | rfl | cases hReports

theorem filterCollect_severity
    (hRun : filterCollect fuel source v raw = .ok (some run)) :
    ∀ d ∈ run.diagnostics,
      d.severity = severityOf v.strictIndentationIsError := by
  have hOp : ∀ {β : Type} (o : Op β) {s : Filter} {b : β} {t : Filter},
      Graded v s → Op.exec β o s = .ok (b, t) → Graded v t := by
    intro β o s b t hInv hExec
    rcases op_reported o hExec with ⟨hStrict, hReports, hReported⟩
    refine ⟨hStrict.trans hInv.strict, hReports.trans hInv.reports, ?_⟩
    intro d hMem
    rcases hReported with
      ⟨hDiagnostics, -⟩ | ⟨message, trigger, hDiagnostics⟩ |
        ⟨keyword, span, hOn, hDiagnostics⟩
    · rw [hDiagnostics] at hMem
      exact hInv.graded d hMem
    · rw [hDiagnostics, List.mem_append, List.mem_singleton] at hMem
      rcases hMem with hOld | rfl
      · exact hInv.graded d hOld
      · dsimp only
        rw [hInv.strict]
    · rw [hDiagnostics, List.mem_append, List.mem_singleton] at hMem
      rcases hMem with hOld | rfl
      · exact hInv.graded d hOld
      · rw [hInv.reports] at hOn
        rw [strict_of_reports hOn]
        rfl
  have hStart : Graded v (Filter.new source v raw) := by
    refine ⟨rfl, rfl, ?_⟩
    intro d hMem
    cases hMem
  rcases filterCollect_invariant hOp hStart hRun with ⟨c, hResult, hInv⟩
  subst hResult
  exact hInv.graded

/- The second state has the same core and reports no more. -/
structure Quieter
    (s s' : Filter) :
    Prop where
  core : SameCore s s'
  strict : s'.strictIndentationIsError = s.strictIndentationIsError
  reports : s'.reportsInvalidDeclsInType = true →
    s.reportsInvalidDeclsInType = true
  fewer : ∀ d ∈ s'.diagnostics, d ∈ s.diagnostics

/- A fault is reported by both in the same way. -/
theorem Quieter.report
    (hQuieter : Quieter s s')
    (trigger : Span)
    (strictness : PushStrictness)
    (fault : Option OffsideMessage) :
    Quieter ((s.reportFault trigger fault).raiseShapeFlag strictness fault)
      ((s'.reportFault trigger fault).raiseShapeFlag strictness fault) := by
  have hReport : Quieter (s.reportFault trigger fault)
      (s'.reportFault trigger fault) := by
    cases fault with
    | none => exact hQuieter
    | some message =>
        refine ⟨hQuieter.core, hQuieter.strict, hQuieter.reports, ?_⟩
        intro d hMem
        unfold Filter.reportFault at hMem ⊢
        dsimp only at hMem ⊢
        rw [hQuieter.strict] at hMem
        rw [List.mem_append] at hMem ⊢
        exact hMem.imp_left (hQuieter.fewer d)
  refine ⟨?_, ?_, ?_, ?_⟩
  · unfold SameCore
    rw [raiseShapeFlag_toCore, raiseShapeFlag_toCore]
    have hCore : (s.reportFault trigger fault).toCore =
        (s'.reportFault trigger fault).toCore := hReport.core
    rw [hCore]
  · cases strictness <;> cases fault <;> exact hReport.strict
  · cases strictness <;> cases fault <;> exact hReport.reports
  · cases strictness <;> cases fault <;> exact hReport.fewer

theorem Quieter.tryPushCtxt
    (hQuieter : Quieter s s')
    (hPush : s.tryPushCtxt strictness ignoreIndent anchorIsEof trigger
      ctxt = .ok (pushed, t)) :
    ∃ t', s'.tryPushCtxt strictness ignoreIndent anchorIsEof trigger
        ctxt = .ok (pushed, t') ∧ Quieter t t' := by
  rcases Filter.tryPushCtxt_cases hPush with ⟨fault, hIndent, hCases⟩
  have hIndent' : s'.isCorrectIndent ignoreIndent anchorIsEof ctxt =
      .ok fault := by
    have hCore : s.toCore = s'.toCore := hQuieter.core
    rw [← hCore]
    exact hIndent
  have hRefuses : s'.refusesOffside strictness =
      s.refusesOffside strictness := by
    cases strictness with
    | AlwaysLenient => rfl
    | VersionGated => exact hQuieter.strict
  have hReport := hQuieter.report trigger strictness fault
  have hCore : ((s.reportFault trigger fault).raiseShapeFlag strictness
      fault).toCore = ((s'.reportFault trigger fault).raiseShapeFlag
        strictness fault).toCore := hReport.core
  unfold Filter.tryPushCtxt
  rw [hIndent']
  dsimp only
  rw [hRefuses]
  rcases hCases with
    ⟨rfl, hRefused, hFault, rfl⟩ | ⟨rfl, hGoes, core, hPushed, rfl⟩
  · rw [hRefused, hFault]
    exact ⟨_, rfl, hReport⟩
  · rw [hGoes, ← hCore, hPushed]
    exact ⟨_, rfl, rfl, hReport.strict, hReport.reports, hReport.fewer⟩

theorem Quieter.checkInvalidDeclInTypeDefn
    (hQuieter : Quieter s s')
    (keyword : NestedDeclKeyword)
    (tok : TokenTup) :
    Quieter (s.checkInvalidDeclInTypeDefn keyword tok)
      (s'.checkInvalidDeclInTypeDefn keyword tok) := by
  have hCore : s.toCore = s'.toCore := hQuieter.core
  have hStack : s'.offsideStack = s.offsideStack := by rw [hCore]
  unfold Filter.checkInvalidDeclInTypeDefn
  rw [hStack]
  by_cases hInvalid : isInvalidDeclInTypeDefn s.offsideStack tok.start = true
  · rw [hInvalid, Bool.and_true, Bool.and_true]
    split
    · next hOn =>
        split
        · next hOn' =>
            refine ⟨hQuieter.core, hQuieter.strict, hQuieter.reports, ?_⟩
            intro d hMem
            rw [List.mem_append] at hMem ⊢
            exact hMem.imp_left (hQuieter.fewer d)
        · refine ⟨hQuieter.core, hQuieter.strict, hQuieter.reports, ?_⟩
          intro d hMem
          exact List.mem_append_left _ (hQuieter.fewer d hMem)
    · next hOff =>
        split
        · next hOn' => exact absurd (hQuieter.reports hOn') hOff
        · exact hQuieter
  · rw [Bool.not_eq_true] at hInvalid
    rw [hInvalid, Bool.and_false, Bool.and_false]
    exact hQuieter

theorem quieter_lockstep :
    Lockstep Quieter (fun _ => True) := by
  constructor
  · intro s s' hQuieter
    have hCore : s.toCore = s'.toCore := hQuieter.core
    rw [hCore]
  · exact fun _ _ _ _ _ _ => trivial
  · intro β o s s' b t hQuieter hExec _
    cases o with
    | core o =>
        have hCore : s.toCore = s'.toCore := hQuieter.core
        simp only [Op.exec] at hExec
        split at hExec
        · next b' u hRun =>
            simp only [Except.ok.injEq, Prod.mk.injEq] at hExec
            rcases hExec with ⟨rfl, rfl⟩
            refine ⟨{ s' with toCore := u }, ?_, rfl, hQuieter.strict,
              hQuieter.reports, hQuieter.fewer⟩
            simp only [Op.exec]
            rw [← hCore, hRun]
        · cases hExec
    | version o =>
        cases o with
        | tryPushCtxt strictness ignoreIndent anchorIsEof trigger ctxt =>
            exact hQuieter.tryPushCtxt hExec
        | checkInvalidDeclInTypeDefn keyword tok =>
            simp only [Op.exec, VersionOp.exec, Except.ok.injEq,
              Prod.mk.injEq] at hExec
            rcases hExec with ⟨-, rfl⟩
            exact ⟨_, rfl, hQuieter.checkInvalidDeclInTypeDefn keyword tok⟩

/-
  Under the same indentation rule a version that reports no more than
  another gives the same tokens and no further diagnostics.
-/
theorem filterCollect_quieter
    {v v' : LanguageVersion}
    (hStrict : v'.strictIndentationIsError = v.strictIndentationIsError)
    (hReports : v'.reportsInvalidDeclsInTypeDefinitions = true →
      v.reportsInvalidDeclsInTypeDefinitions = true)
    (hRun : filterCollect fuel source v raw = .ok (some run)) :
    ∃ run', filterCollect fuel source v' raw = .ok (some run') ∧
      run'.tokens = run.tokens ∧
      ∀ d ∈ run'.diagnostics, d ∈ run.diagnostics := by
  have hStart : Quieter (Filter.new source v raw)
      (Filter.new source v' raw) := by
    refine ⟨rfl, hStrict, hReports, ?_⟩
    intro d hMem
    cases hMem
  rcases quieter_lockstep.filterCollect hStart hRun fun _ _ => trivial with
    ⟨c, c', hResult, hRun', hPaired⟩
  subst hResult
  exact ⟨c'.result, hRun', hPaired.emitted.symm, hPaired.filter.fewer⟩

end LexFilter

end Borzoi
