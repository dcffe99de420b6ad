import Borzoi.Cst.Parse
import Borzoi.LexFilter.VersionClasses

/-
  Equal diagnostics at both ends of the version ladder.

  Each gate has texts of its own.  When both ends agree, no gate has
  spoken at either end: the filter's tokens are then those of every
  version, and so is the tree.  A depth-limited parse has one error,
  and versions of one indentation rule have the same tokens.

  Main declarations:
    * `GateText`
    * `OwnTexts`
    * `Parsed`
    * `quiet_of_agreement`
    * `version_check_proves_invariance`
    * `version_check_misses_counterfeit`
-/

namespace Borzoi

namespace Cst

open Directives
open LexFilter
open Lexer

/- The texts of the gates and of the depth limit. -/
inductive GateText : String → Prop
  | depth : GateText depthLimitText
  | offside (message : OffsideMessage) : GateText message.text
  | feature (feature lang introduced : String) :
      GateText (featureText feature lang introduced)

/- The productions have texts of their own. -/
def OwnTexts
    (productions : Productions) :
    Prop :=
  ∀ fileKind source rawTokens filtered produced,
    productions fileKind source rawTokens filtered = .ok produced →
    ∀ e, e ∈ produced.errors ∨ e ∈ produced.warnings → ¬ GateText e.message

def headOf
    (text : String) :
    Option Char :=
  text.toList.head?

variable {c : Char} {lang : LanguageVersion} {rawTokens : List CoreItem}
variable {diagnostics : List OffsideDiagnostic} {severity : OffsideSeverity}
variable {p : Parse} {e : ParseError} {text : String} {root : SyntaxTree}

/- A text starts like its first part. -/
theorem headOf_append
    {a b : String}
    (hHead : headOf a = some c) :
    headOf (a ++ b) = some c := by
  unfold headOf at hHead ⊢
  rw [String.toList_append, List.head?_append, hHead]
  rfl

theorem headOf_feature
    (feature lang introduced : String) :
    headOf (featureText feature lang introduced) = some 'F' := by
  unfold featureText
  iterate 6 apply headOf_append
  decide

theorem headOf_depth :
    headOf depthLimitText = some 'e' := by
  decide

theorem headOf_offside
    (message : OffsideMessage) :
    headOf message.text ∈ [some 'U', some 'N', some 'M', some 'E'] := by
  cases message with
  | Undentation line utf16Col =>
      have hHead : headOf (OffsideMessage.Undentation line utf16Col).text =
          some 'U' := by
        unfold OffsideMessage.text
        iterate 8 apply headOf_append
        decide
      rw [hHead]
      decide
  | NestedDecl keyword =>
      have hHead : headOf keyword.message = some 'N' ∨
          headOf keyword.message = some 'M' ∨
          headOf keyword.message = some 'E' := by
        cases keyword with
        | TypeKw => exact Or.inl (headOf_append (by decide))
        | Module => exact Or.inr (Or.inl (headOf_append (by decide)))
        | Exception => exact Or.inr (Or.inr (by decide))
      change headOf keyword.message ∈ _
      rcases hHead with hHead | hHead | hHead <;> rw [hHead] <;> decide

theorem GateText.head
    (hGate : GateText text) :
    headOf text ∈ [some 'e', some 'F', some 'U', some 'N', some 'M',
      some 'E'] := by
  cases hGate with
  | depth =>
      rw [headOf_depth]
      decide
  | offside message =>
      have hHead := headOf_offside message
      simp only [List.mem_cons] at hHead ⊢
      tauto
  | feature feature lang introduced =>
      rw [headOf_feature]
      decide

/- A text that starts like those of the tokens' diagnostics. -/
def PlainText
    (text : String) :
    Prop :=
  headOf text ∈ [some '`', some 'm', some 'T', some '\'']

theorem PlainText.not_gate
    (hPlain : PlainText text) :
    ¬ GateText text := by
  intro hGate
  have hHead := hGate.head
  unfold PlainText at hPlain
  simp only [List.mem_cons, List.not_mem_nil, or_false] at hPlain hHead
  rcases hPlain with hPlain | hPlain | hPlain | hPlain <;>
    rw [hPlain] at hHead <;> revert hHead <;> decide

theorem plainText_of_head
    (hHead : headOf text = some c)
    (hPlain : c ∈ ['`', 'm', 'T', '\'']) :
    PlainText text := by
  unfold PlainText
  rw [hHead]
  exact List.mem_map_of_mem hPlain

theorem directiveErrorMessage_plain
    (debugChar : List UInt8 → String)
    (e : DirectiveError) :
    PlainText (directiveErrorMessage debugChar e) := by
  have hHead : headOf (directiveErrorMessage debugChar e) = some 'm' := by
    unfold directiveErrorMessage
    cases e.kind with
    | ExpressionParse e => exact headOf_append (by decide)
    | _ =>
        dsimp only
        decide
  exact plainText_of_head hHead (by decide)

theorem directiveErrors_plain
    {debugChar : List UInt8 → String}
    {items : List CoreItem}
    (hMem : e ∈ directiveErrors debugChar items) :
    PlainText e.message := by
  rcases List.mem_filterMap.mp hMem with ⟨item, -, hItem⟩
  split at hItem
  · cases hItem
  · cases hItem
  · next err hNotLex hError =>
      cases hItem
      have hTick (text : String)
          (hHead : headOf text = some '`') : PlainText text :=
        plainText_of_head hHead (by decide)
      cases err with
      | Lex e => exact absurd rfl (hNotLex e)
      | Directive e => exact directiveErrorMessage_plain debugChar e
      | _ =>
          apply hTick
          dsimp only [PreprocError.diagnosticMessage]
          decide

theorem tabDiagnostics_plain
    {source : List UInt8}
    (hMem : e ∈ tabDiagnostics source rawTokens) :
    PlainText e.message := by
  rcases List.mem_flatMap.mp hMem with ⟨item, -, hItem⟩
  unfold tabDiagnosticsAt at hItem
  split at hItem
  · split at hItem
    · cases hItem
    · rcases List.mem_map.mp hItem with ⟨span, -, rfl⟩
      have hHead : headOf "TABs are not allowed in F# code" = some 'T' := by
        decide
      exact plainText_of_head hHead (by decide)
  · cases hItem

theorem operatorCharDiagnostics_plain
    (hMem : e ∈ operatorCharDiagnostics rawTokens) :
    PlainText e.message := by
  rcases List.mem_flatMap.mp hMem with ⟨item, -, hItem⟩
  unfold operatorCharDiagnosticsAt at hItem
  split at hItem
  · rcases List.mem_map.mp hItem with ⟨c, -, rfl⟩
    apply plainText_of_head (c := '\'') _ (by decide)
    iterate 3 apply headOf_append
    decide
  · cases hItem

theorem reservedIdentDiagnostics_plain
    (hMem : e ∈ reservedIdentDiagnostics rawTokens) :
    PlainText e.message := by
  have hText (word : List Char) : PlainText (reservedText word) := by
    have hHead : headOf (reservedText word) = some 'T' := by
      unfold reservedText
      iterate 2 apply headOf_append
      decide
    exact plainText_of_head hHead (by decide)
  induction rawTokens with
  | nil => cases hMem
  | cons item rest ih =>
      unfold reservedIdentDiagnostics at hMem
      rw [List.mem_append] at hMem
      rcases hMem with hHere | hRest
      · split at hHere
        · split at hHere
          · split at hHere
            · cases hHere
            · rw [List.mem_singleton] at hHere
              rw [hHere]
              exact hText _
            · rw [List.mem_singleton] at hHere
              rw [hHere]
              exact hText _
          · cases hHere
        · cases hHere
      · exact ih hRest

section Parts

variable {logos : Logos} {debugChar : List UInt8 → String}
variable {productions : Productions} {fuel : Nat} {source : List UInt8}
variable {symbols : List UInt8 → Bool} {fileKind : FileKind}
variable {lang lang' : LanguageVersion} {pre : Preprocessed}

def rawOf
    (pre : Preprocessed) :
    List CoreItem :=
  pre.items.filter CoreItem.coversSource

/- The filter's run under a version, and what is produced from it. -/
structure Parsed
    (productions : Productions)
    (fuel : Nat)
    (source : List UInt8)
    (fileKind : FileKind)
    (pre : Preprocessed)
    (lang : LanguageVersion)
    (run : FilterRun)
    (produced : Produced) :
    Prop where
  filtered : filterCollect fuel source lang (activeTokens (rawOf pre)) =
    .ok (some run)
  produces : ∃ tokens,
    foldAdjacentSigns source (rawOf pre) run.tokens = .ok tokens ∧
      productions fileKind source (rawOf pre) tokens = .ok produced

theorem parseInner_cases
    (hParse : parseInner logos debugChar productions fuel source symbols
      fileKind lang = .ok (some p)) :
    ∃ pre run produced,
      lexWithSymbolsFullTrivia logos fuel source symbols = some pre ∧
      Parsed productions fuel source fileKind pre lang run produced ∧
      p = finishParse debugChar source pre (rawOf pre) run lang produced := by
  unfold parseInner at hParse
  split at hParse
  · cases hParse
  · next pre hLex =>
      dsimp only at hParse
      split at hParse
      · cases hParse
      · cases hParse
      · next run hFilter =>
          split at hParse
          · cases hParse
          · next tokens hFold =>
              split at hParse
              · cases hParse
              · next produced hProduced =>
                  cases hParse
                  exact ⟨pre, run, produced, hLex,
                    ⟨hFilter, tokens, hFold, hProduced⟩, rfl⟩

variable {run run' : FilterRun} {produced : Produced}

theorem Parsed.parseInner
    (hParsed : Parsed productions fuel source fileKind pre lang run produced)
    (hLex : lexWithSymbolsFullTrivia logos fuel source symbols = some pre) :
    parseInner logos debugChar productions fuel source symbols fileKind
        lang =
      .ok (some (finishParse debugChar source pre (rawOf pre) run lang
        produced)) := by
  rcases hParsed with ⟨hFilter, tokens, hFold, hProduced⟩
  unfold rawOf at hFilter hFold hProduced ⊢
  unfold Cst.parseInner
  rw [hLex]
  dsimp only
  rw [hFilter]
  dsimp only
  rw [hFold]
  dsimp only
  rw [hProduced]

/- The productions see the tokens only. -/
theorem Parsed.congr
    (hParsed : Parsed productions fuel source fileKind pre lang run produced)
    (hFilter : filterCollect fuel source lang' (activeTokens (rawOf pre)) =
      .ok (some run'))
    (hTokens : run'.tokens = run.tokens) :
    Parsed productions fuel source fileKind pre lang' run' produced := by
  rcases hParsed with ⟨-, tokens, hFold, hProduced⟩
  refine ⟨hFilter, tokens, ?_, hProduced⟩
  rw [hTokens]
  exact hFold

theorem Parsed.produced_eq
    {produced produced' : Produced}
    (hParsed : Parsed productions fuel source fileKind pre lang run produced)
    (hParsed' : Parsed productions fuel source fileKind pre lang' run'
      produced')
    (hTokens : run'.tokens = run.tokens) :
    produced' = produced := by
  rcases hParsed with ⟨-, tokens, hFold, hProduced⟩
  rcases hParsed' with ⟨-, tokens', hFold', hProduced'⟩
  rw [hTokens, hFold] at hFold'
  cases hFold'
  rw [hProduced] at hProduced'
  exact (Except.ok.inj hProduced').symm

end Parts

theorem mem_sortBySpan
    {errors : List ParseError}
    {e : ParseError} :
    e ∈ sortBySpan errors ↔ e ∈ errors :=
  (List.perm_insertionSort _ errors).mem_iff

theorem offsideErrors_text
    (hMem : e ∈ offsideErrors diagnostics severity) :
    ∃ message : OffsideMessage, e.message = message.text := by
  rcases List.mem_map.mp hMem with ⟨diag, -, rfl⟩
  exact ⟨diag.message, rfl⟩

theorem langversionDiagnostics_text
    {spans : List Span}
    (hMem : e ∈ langversionDiagnostics spans lang) :
    ∃ feature introduced,
      e.message = featureText feature lang.text introduced := by
  unfold langversionDiagnostics at hMem
  split at hMem
  · cases hMem
  · rcases List.mem_map.mp hMem with ⟨span, -, rfl⟩
    exact ⟨_, _, rfl⟩

theorem nodeSurfaceDiagnostics_text
    (hMem : e ∈ nodeSurfaceDiagnostics root lang) :
    ∃ feature introduced,
      e.message = featureText feature lang.text introduced := by
  rcases List.mem_filterMap.mp hMem with ⟨node, -, hNode⟩
  unfold nodeSurfaceDiagnostic at hNode
  split at hNode
  · cases hNode
  · split at hNode
    · cases hNode
    · split at hNode
      · cases hNode
      · cases hNode
        exact ⟨_, _, rfl⟩

/- A node that is reported at some version is reported at the lowest. -/
theorem nodeSurfaceDiagnostics_of_min
    (hNone : nodeSurfaceDiagnostics root .MIN = [])
    (lang : LanguageVersion) :
    nodeSurfaceDiagnostics root lang = [] := by
  unfold nodeSurfaceDiagnostics at hNone ⊢
  rw [List.filterMap_eq_nil_iff] at hNone ⊢
  intro node hMem
  have hLow := hNone node hMem
  unfold nodeSurfaceDiagnostic at hLow ⊢
  cases hIntroduced : introducedAt node.1 with
  | none => rfl
  | some introduced =>
      rw [hIntroduced] at hLow
      dsimp only at hLow ⊢
      by_cases hLang : introduced.rank ≤ lang.rank
      · rw [if_pos hLang]
      · have hMin : ¬ introduced.rank ≤ LanguageVersion.MIN.rank := by
          intro hLe
          exact hLang (Nat.le_trans hLe (Nat.zero_le _))
        rw [if_neg hMin] at hLow
        rw [if_neg hLang]
        cases hName : featureNameForKind node.1 with
        | none => rfl
        | some feature =>
            rw [hName] at hLow
            cases hLow

theorem nodeSurfaceDiagnostics_max
    (root : SyntaxTree) :
    nodeSurfaceDiagnostics root .MAX = [] := by
  unfold nodeSurfaceDiagnostics
  rw [List.filterMap_eq_nil_iff]
  intro node hMem
  unfold nodeSurfaceDiagnostic
  cases hIntroduced : introducedAt node.1 with
  | none => rfl
  | some introduced =>
      have hTop : introduced.rank ≤ LanguageVersion.MAX.rank := by
        cases introduced <;> decide
      dsimp only
      rw [if_pos hTop]

theorem feature_ne_offside
    {feature lang introduced : String}
    {message : OffsideMessage} :
    featureText feature lang introduced ≠ message.text := by
  intro hEq
  have hHead := headOf_offside message
  rw [← hEq, headOf_feature] at hHead
  revert hHead
  decide

theorem depth_ne_feature
    {feature lang introduced : String} :
    depthLimitText ≠ featureText feature lang introduced := by
  intro hEq
  have hHead := headOf_feature feature lang introduced
  rw [← hEq, headOf_depth] at hHead
  revert hHead
  decide

theorem depth_ne_offside
    {message : OffsideMessage} :
    depthLimitText ≠ message.text := by
  intro hEq
  have hHead := headOf_offside message
  rw [← hEq, headOf_depth] at hHead
  revert hHead
  decide

/- The diagnostics of a run all go to the list of its severity. -/
theorem offsideErrors_nil
    {severity other : OffsideSeverity}
    (hSeverity : ∀ d ∈ diagnostics, d.severity = severity)
    (hOther : other ≠ severity) :
    offsideErrors diagnostics other = [] := by
  unfold offsideErrors
  rw [List.map_eq_nil_iff, List.filter_eq_nil_iff]
  intro d hMem
  rw [hSeverity d hMem, beq_iff_eq]
  exact hOther.symm

theorem diagnostics_nil
    (hSeverity : ∀ d ∈ diagnostics, d.severity = severity)
    (hNone : ∀ e, e ∉ offsideErrors diagnostics severity) :
    diagnostics = [] := by
  apply List.eq_nil_iff_forall_not_mem.mpr
  intro d hMem
  apply hNone (offsideError d)
  apply List.mem_map_of_mem
  apply List.mem_filter.mpr
  exact ⟨hMem, beq_iff_eq.mpr (hSeverity d hMem)⟩

------------------------------------------------------------
-- Agreement of the Ends
------------------------------------------------------------

section Agreement

variable {debugChar : List UInt8 → String} {productions : Productions}
variable {fuel : Nat} {source : List UInt8} {fileKind : FileKind}
variable {lang : LanguageVersion} {pre : Preprocessed}
variable {run run₀ run₁ : FilterRun} {produced produced₀ produced₁ : Produced}

/- An error with the text of a gate comes from a gate. -/
theorem gate_error
    (hOwn : OwnTexts productions)
    (hParsed : Parsed productions fuel source fileKind pre lang run produced)
    (hOpen : produced.depthLimitHit = false)
    (hMem : e ∈ (finishParse debugChar source pre (rawOf pre) run lang
      produced).errors)
    (hGate : GateText e.message) :
    e ∈ langversionDiagnostics pre.elifDirectives lang ∨
      e ∈ nodeSurfaceDiagnostics produced.root lang ∨
      e ∈ offsideErrors run.diagnostics .Error := by
  rcases hParsed with ⟨-, tokens, -, hProduced⟩
  unfold finishParse at hMem
  rw [hOpen, if_neg Bool.false_ne_true] at hMem
  dsimp only at hMem
  rw [mem_sortBySpan] at hMem
  simp only [List.mem_append] at hMem
  rcases hMem with
    (((((hOwned | hDirective) | hTab) | hOp) | hElif) | hNode) | hOffside
  · exact absurd hGate (hOwn _ _ _ _ _ hProduced e (Or.inl hOwned))
  · exact absurd hGate (directiveErrors_plain hDirective).not_gate
  · exact absurd hGate (tabDiagnostics_plain hTab).not_gate
  · exact absurd hGate (operatorCharDiagnostics_plain hOp).not_gate
  · exact Or.inl hElif
  · exact Or.inr (Or.inl hNode)
  · exact Or.inr (Or.inr hOffside)

theorem gate_warning
    (hOwn : OwnTexts productions)
    (hParsed : Parsed productions fuel source fileKind pre lang run produced)
    (hOpen : produced.depthLimitHit = false)
    (hMem : e ∈ (finishParse debugChar source pre (rawOf pre) run lang
      produced).warnings)
    (hGate : GateText e.message) :
    e ∈ offsideErrors run.diagnostics .Warning := by
  rcases hParsed with ⟨-, tokens, -, hProduced⟩
  unfold finishParse at hMem
  rw [hOpen, if_neg Bool.false_ne_true] at hMem
  dsimp only at hMem
  rw [mem_sortBySpan] at hMem
  simp only [List.mem_append] at hMem
  rcases hMem with (hOwned | hReserved) | hOffside
  · exact absurd hGate (hOwn _ _ _ _ _ hProduced e (Or.inr hOwned))
  · exact absurd hGate (reservedIdentDiagnostics_plain hReserved).not_gate
  · exact hOffside

/- What a gate says is among the errors. -/
theorem mem_errors
    (hOpen : produced.depthLimitHit = false)
    (hMem : e ∈ langversionDiagnostics pre.elifDirectives lang ∨
      e ∈ nodeSurfaceDiagnostics produced.root lang ∨
      e ∈ offsideErrors run.diagnostics .Error) :
    e ∈ (finishParse debugChar source pre (rawOf pre) run lang
      produced).errors := by
  unfold finishParse
  rw [hOpen, if_neg Bool.false_ne_true]
  dsimp only
  rw [mem_sortBySpan]
  simp only [List.mem_append]
  tauto

theorem mem_warnings
    (hOpen : produced.depthLimitHit = false)
    (hMem : e ∈ offsideErrors run.diagnostics .Warning) :
    e ∈ (finishParse debugChar source pre (rawOf pre) run lang
      produced).warnings := by
  unfold finishParse
  rw [hOpen, if_neg Bool.false_ne_true]
  dsimp only
  rw [mem_sortBySpan]
  exact List.mem_append_right _ hMem

/- Only a depth-limited parse has an error with the limit's text. -/
theorem depth_not_mem
    (hOwn : OwnTexts productions)
    (hParsed : Parsed productions fuel source fileKind pre lang run produced)
    (hOpen : produced.depthLimitHit = false)
    (span : Span) :
    (⟨depthLimitText, span⟩ : ParseError) ∉
      (finishParse debugChar source pre (rawOf pre) run lang
        produced).errors := by
  intro hMem
  rcases gate_error hOwn hParsed hOpen hMem .depth with
    hElif | hNode | hOffside
  · rcases langversionDiagnostics_text hElif with ⟨feature, introduced, hText⟩
    exact depth_ne_feature hText
  · rcases nodeSurfaceDiagnostics_text hNode with
      ⟨feature, introduced, hText⟩
    exact depth_ne_feature hText
  · rcases offsideErrors_text hOffside with ⟨message, hText⟩
    exact depth_ne_offside hText

/- Two parses report the same. -/
structure SameReports
    (p q : Parse) :
    Prop where
  errors : p.errors = q.errors
  warnings : p.warnings = q.warnings

/- What a parse that is not depth-limited leaves open to the version. -/
structure Quiet
    (pre : Preprocessed)
    (run₀ run₁ : FilterRun)
    (root : SyntaxTree) :
    Prop where
  low : run₀.diagnostics = []
  high : run₁.diagnostics = []
  elifs : pre.elifDirectives = []
  nodes : nodeSurfaceDiagnostics root .MIN = []

/- Where the ends agree, no gate speaks at either. -/
theorem quiet_of_agreement
    (hOwn : OwnTexts productions)
    (hLow : Parsed productions fuel source fileKind pre .MIN run₀ produced₀)
    (hHigh : Parsed productions fuel source fileKind pre .MAX run₁ produced₁)
    (hOpen₀ : produced₀.depthLimitHit = false)
    (hOpen₁ : produced₁.depthLimitHit = false)
    (hSame : SameReports
      (finishParse debugChar source pre (rawOf pre) run₀ .MIN produced₀)
      (finishParse debugChar source pre (rawOf pre) run₁ .MAX produced₁)) :
    Quiet pre run₀ run₁ produced₀.root := by
  have hSeverity₀ := filterCollect_severity hLow.filtered
  have hSeverity₁ := filterCollect_severity hHigh.filtered
  -- no feature is reported at the lowest version
  have hFeatures : ∀ e,
      ¬ (e ∈ langversionDiagnostics pre.elifDirectives .MIN ∨
        e ∈ nodeSurfaceDiagnostics produced₀.root .MIN) := by
    intro e hFeature
    have hText : ∃ feature introduced, e.message =
        featureText feature LanguageVersion.MIN.text introduced := by
      rcases hFeature with hElif | hNode
      · exact langversionDiagnostics_text hElif
      · exact nodeSurfaceDiagnostics_text hNode
    rcases hText with ⟨feature, introduced, hText⟩
    have hHere : e ∈ (finishParse debugChar source pre (rawOf pre) run₀ .MIN
        produced₀).errors :=
      mem_errors hOpen₀ (hFeature.imp_right Or.inl)
    rw [hSame.errors] at hHere
    rcases gate_error hOwn hHigh hOpen₁ hHere (hText ▸ .feature _ _ _) with
      hElif | hNode | hOffside
    · cases hElif
    · rw [nodeSurfaceDiagnostics_max] at hNode
      cases hNode
    · rcases offsideErrors_text hOffside with ⟨message, hOther⟩
      exact feature_ne_offside (hText.symm.trans hOther)
  constructor
  · apply diagnostics_nil hSeverity₀
    intro e hMem
    rcases offsideErrors_text hMem with ⟨message, hText⟩
    have hHere : e ∈ (finishParse debugChar source pre (rawOf pre) run₀ .MIN
        produced₀).warnings :=
      mem_warnings hOpen₀ hMem
    rw [hSame.warnings] at hHere
    have hThere := gate_warning hOwn hHigh hOpen₁ hHere
      (hText ▸ .offside message)
    rw [offsideErrors_nil hSeverity₁ (by decide)] at hThere
    cases hThere
  · apply diagnostics_nil hSeverity₁
    intro e hMem
    rcases offsideErrors_text hMem with ⟨message, hText⟩
    have hHere : e ∈ (finishParse debugChar source pre (rawOf pre) run₁ .MAX
        produced₁).errors :=
      mem_errors hOpen₁ (Or.inr (Or.inr hMem))
    rw [← hSame.errors] at hHere
    rcases gate_error hOwn hLow hOpen₀ hHere (hText ▸ .offside message) with
      hElif | hNode | hOffside
    · exact hFeatures e (Or.inl hElif)
    · exact hFeatures e (Or.inr hNode)
    · rw [offsideErrors_nil hSeverity₀ (by decide)] at hOffside
      cases hOffside
  · apply List.eq_nil_iff_forall_not_mem.mpr
    intro span hMem
    apply hFeatures _ (Or.inl (List.mem_map_of_mem hMem))
  · apply List.eq_nil_iff_forall_not_mem.mpr
    exact fun e hMem => hFeatures e (Or.inr hMem)

/- The tokens of every version are those of one of the ends. -/
theorem Parsed.at_version
    (hLow : Parsed productions fuel source fileKind pre .MIN run₀ produced₀)
    (hHigh : Parsed productions fuel source fileKind pre .MAX run₁ produced₁)
    (lang : LanguageVersion) :
    ∃ run,
      (Parsed productions fuel source fileKind pre lang run produced₀ ∧
        ∀ d ∈ run.diagnostics, d ∈ run₀.diagnostics) ∨
      (Parsed productions fuel source fileKind pre lang run produced₁ ∧
        ∀ d ∈ run.diagnostics, d ∈ run₁.diagnostics) := by
  cases hStrict : lang.strictIndentationIsError with
  | false =>
      have hReports : lang.reportsInvalidDeclsInTypeDefinitions = true →
          LanguageVersion.MIN.reportsInvalidDeclsInTypeDefinitions = true := by
        revert hStrict
        cases lang <;> decide
      rcases filterCollect_quieter hStrict hReports hLow.filtered with
        ⟨run, hRun, hTokens, hFewer⟩
      exact ⟨run, Or.inl ⟨hLow.congr hRun hTokens, hFewer⟩⟩
  | true =>
      rcases filterCollect_quieter hStrict (fun _ => rfl) hHigh.filtered with
        ⟨run, hRun, hTokens, hFewer⟩
      exact ⟨run, Or.inr ⟨hHigh.congr hRun hTokens, hFewer⟩⟩

/- A silent run at the top has the tokens of every version. -/
theorem Parsed.produced_of_silent
    (hLow : Parsed productions fuel source fileKind pre .MIN run₀ produced₀)
    (hHigh : Parsed productions fuel source fileKind pre .MAX run₁ produced₁)
    (hSilent : run₁.diagnostics = []) :
    produced₀ = produced₁ := by
  have hFlag := filterCollect_flag_reported hHigh.filtered hSilent
  rcases filterCollect_sameRun .MIN hHigh.filtered hFlag with
    ⟨c, c', hResult, hRun, hSame⟩
  have hEq : run₀ = c'.result := by
    have hOk := hLow.filtered.symm.trans hRun
    exact Option.some.inj (Except.ok.inj hOk)
  apply hHigh.produced_eq hLow
  rw [hEq, ← hResult]
  exact hSame.emitted.symm

/- The diagnostics of a parse in which no gate speaks. -/
theorem finishParse_quiet
    (debugChar : List UInt8 → String)
    (source : List UInt8)
    (hOpen : produced.depthLimitHit = false)
    (hRun : run.diagnostics = [])
    (hElifs : pre.elifDirectives = [])
    (hNodes : nodeSurfaceDiagnostics produced.root lang = []) :
    (finishParse debugChar source pre (rawOf pre) run lang produced).errors =
        sortBySpan (produced.errors ++ directiveErrors debugChar pre.items ++
          tabDiagnostics source (rawOf pre) ++
          operatorCharDiagnostics (rawOf pre)) ∧
      (finishParse debugChar source pre (rawOf pre) run lang
          produced).warnings =
        sortBySpan (produced.warnings ++
          reservedIdentDiagnostics (rawOf pre)) := by
  have hGate : langversionDiagnostics [] lang = [] := by
    unfold langversionDiagnostics
    exact ite_self _
  have hOffside (severity : OffsideSeverity) :
      offsideErrors [] severity = [] := rfl
  unfold finishParse
  rw [hOpen, if_neg Bool.false_ne_true, hRun, hElifs, hNodes, hGate]
  simp only [hOffside, List.append_nil, and_self]

/- A depth-limited parse has the errors of its productions only. -/
theorem finishParse_limited
    (hLimited : produced.depthLimitHit = true) :
    (finishParse debugChar source pre (rawOf pre) run lang produced).errors =
        [⟨depthLimitText,
          produced.depthLimitSpan.getD ⟨0, source.length⟩⟩] ∧
      (finishParse debugChar source pre (rawOf pre) run lang
          produced).warnings = [] := by
  unfold finishParse
  rw [hLimited, if_pos rfl]
  exact ⟨rfl, rfl⟩

/- Both ends reach the limit, or neither does. -/
theorem limited_of_agreement
    (hOwn : OwnTexts productions)
    (hLow : Parsed productions fuel source fileKind pre .MIN run₀ produced₀)
    (hHigh : Parsed productions fuel source fileKind pre .MAX run₁ produced₁)
    (hSame : SameReports
      (finishParse debugChar source pre (rawOf pre) run₀ .MIN produced₀)
      (finishParse debugChar source pre (rawOf pre) run₁ .MAX produced₁)) :
    produced₀.depthLimitHit = produced₁.depthLimitHit := by
  cases hLimit₀ : produced₀.depthLimitHit with
  | false =>
      cases hLimit₁ : produced₁.depthLimitHit with
      | false => rfl
      | true =>
          exfalso
          apply depth_not_mem hOwn hLow hLimit₀
          rw [hSame.errors, (finishParse_limited hLimit₁).1]
          exact List.mem_singleton_self _
  | true =>
      cases hLimit₁ : produced₁.depthLimitHit with
      | true => rfl
      | false =>
          exfalso
          apply depth_not_mem hOwn hHigh hLimit₁
          rw [← hSame.errors, (finishParse_limited hLimit₀).1]
          exact List.mem_singleton_self _

/- Depth-limited at both ends: the one error is that of every version. -/
theorem at_version_limited
    (hLow : Parsed productions fuel source fileKind pre .MIN run₀ produced₀)
    (hHigh : Parsed productions fuel source fileKind pre .MAX run₁ produced₁)
    (hLimit₀ : produced₀.depthLimitHit = true)
    (hLimit₁ : produced₁.depthLimitHit = true)
    (hSame : SameReports
      (finishParse debugChar source pre (rawOf pre) run₀ .MIN produced₀)
      (finishParse debugChar source pre (rawOf pre) run₁ .MAX produced₁))
    (lang : LanguageVersion) :
    ∃ run produced,
      Parsed productions fuel source fileKind pre lang run produced ∧
      SameReports
        (finishParse debugChar source pre (rawOf pre) run lang produced)
        (finishParse debugChar source pre (rawOf pre) run₀ .MIN produced₀) := by
  rcases hLow.at_version hHigh lang with
    ⟨run, ⟨hParsed, -⟩ | ⟨hParsed, -⟩⟩
  · refine ⟨run, produced₀, hParsed, ?_, ?_⟩
    · rw [(finishParse_limited hLimit₀).1, (finishParse_limited hLimit₀).1]
    · rw [(finishParse_limited hLimit₀).2, (finishParse_limited hLimit₀).2]
  · refine ⟨run, produced₁, hParsed, ?_, ?_⟩
    · rw [hSame.errors, (finishParse_limited hLimit₁).1,
        (finishParse_limited hLimit₁).1]
    · rw [(finishParse_limited hLimit₁).2, (finishParse_limited hLimit₀).2]

/- Silent gates at both ends: every version reports what the others do. -/
theorem at_version_quiet
    (hLow : Parsed productions fuel source fileKind pre .MIN run₀ produced₀)
    (hHigh : Parsed productions fuel source fileKind pre .MAX run₁ produced₁)
    (hOpen : produced₀.depthLimitHit = false)
    (hQuiet : Quiet pre run₀ run₁ produced₀.root)
    (lang : LanguageVersion) :
    ∃ run produced,
      Parsed productions fuel source fileKind pre lang run produced ∧
      SameReports
        (finishParse debugChar source pre (rawOf pre) run lang produced)
        (finishParse debugChar source pre (rawOf pre) run₀ .MIN produced₀) := by
  have hAlike := hLow.produced_of_silent hHigh hQuiet.high
  subst hAlike
  have hAt : ∃ run, Parsed productions fuel source fileKind pre lang run
      produced₀ ∧ run.diagnostics = [] := by
    rcases hLow.at_version hHigh lang with
      ⟨run, ⟨hParsed, hFewer⟩ | ⟨hParsed, hFewer⟩⟩
    · rw [hQuiet.low] at hFewer
      exact ⟨run, hParsed, List.eq_nil_iff_forall_not_mem.mpr
        fun d hMem => List.not_mem_nil (hFewer d hMem)⟩
    · rw [hQuiet.high] at hFewer
      exact ⟨run, hParsed, List.eq_nil_iff_forall_not_mem.mpr
        fun d hMem => List.not_mem_nil (hFewer d hMem)⟩
  rcases hAt with ⟨run, hParsed, hRun⟩
  have hHere := finishParse_quiet debugChar source hOpen hRun hQuiet.elifs
    (nodeSurfaceDiagnostics_of_min hQuiet.nodes lang)
  have hLowest := finishParse_quiet debugChar source hOpen hQuiet.low
    hQuiet.elifs hQuiet.nodes
  refine ⟨run, produced₀, hParsed, ?_, ?_⟩
  · rw [hHere.1, hLowest.1]
  · rw [hHere.2, hLowest.2]

end Agreement

------------------------------------------------------------
-- The Check
------------------------------------------------------------

section Check

variable {logos : Logos} {debugChar : List UInt8 → String}
variable {productions : Productions} {fuel : Nat} {source : List UInt8}
variable {symbols : List UInt8 → Bool} {fileKind : FileKind}

theorem parseAt_eq_some
    (hParse : parseAt logos debugChar productions fuel source symbols
      fileKind lang = some p) :
    parseInner logos debugChar productions fuel source symbols fileKind
      lang = .ok (some p) := by
  unfold parseAt at hParse
  split at hParse
  · next result hResult =>
      rw [hResult, hParse]
  · cases hParse

/- The check holds when both ends parse, with equal diagnostics. -/
theorem diagnosticsAreVersionInvariant_cases
    (hCheck : diagnosticsAreVersionInvariant logos debugChar productions fuel
      source symbols fileKind = true) :
    ∃ pre run₀ run₁ produced₀ produced₁,
      lexWithSymbolsFullTrivia logos fuel source symbols = some pre ∧
      Parsed productions fuel source fileKind pre .MIN run₀ produced₀ ∧
      Parsed productions fuel source fileKind pre .MAX run₁ produced₁ ∧
      SameReports
        (finishParse debugChar source pre (rawOf pre) run₀ .MIN produced₀)
        (finishParse debugChar source pre (rawOf pre) run₁ .MAX produced₁) := by
  unfold diagnosticsAreVersionInvariant at hCheck
  dsimp only at hCheck
  split at hCheck
  · next lo hi hLo hHi =>
      rw [Bool.and_eq_true] at hCheck
      have hErrors : lo.errors = hi.errors := eq_of_beq hCheck.1
      have hWarnings : lo.warnings = hi.warnings := eq_of_beq hCheck.2
      rcases parseInner_cases (parseAt_eq_some hLo) with
        ⟨pre, run₀, produced₀, hLex, hLow, rfl⟩
      rcases parseInner_cases (parseAt_eq_some hHi) with
        ⟨pre', run₁, produced₁, hLex', hHigh, rfl⟩
      rw [hLex] at hLex'
      cases hLex'
      exact ⟨pre, run₀, run₁, produced₀, produced₁, hLex, hLow, hHigh,
        ⟨hErrors, hWarnings⟩⟩
  · cases hCheck

/-
  Where the two ends of the ladder agree, every version reports the
  same.
-/
theorem version_check_proves_invariance
    (logos : Logos)
    (debugChar : List UInt8 → String)
    (productions : Productions)
    (hOwn : OwnTexts productions)
    (fuel : Nat)
    (source : List UInt8)
    (symbols : List UInt8 → Bool)
    (fileKind : FileKind)
    (hCheck : diagnosticsAreVersionInvariant logos debugChar productions fuel
      source symbols fileKind = true) :
    ∃ low,
      parseInner logos debugChar productions fuel source symbols fileKind
          .MIN = .ok (some low) ∧
        ∀ lang, ∃ p,
          parseInner logos debugChar productions fuel source symbols fileKind
              lang = .ok (some p) ∧
            p.errors = low.errors ∧ p.warnings = low.warnings := by
  rcases diagnosticsAreVersionInvariant_cases hCheck with
    ⟨pre, run₀, run₁, produced₀, produced₁, hLex, hLow, hHigh, hSame⟩
  have hLimited := limited_of_agreement hOwn hLow hHigh hSame
  refine ⟨_, hLow.parseInner hLex, fun lang => ?_⟩
  have hAt : ∃ run produced,
      Parsed productions fuel source fileKind pre lang run produced ∧
      SameReports
        (finishParse debugChar source pre (rawOf pre) run lang produced)
        (finishParse debugChar source pre (rawOf pre) run₀ .MIN produced₀) := by
    cases hLimit : produced₀.depthLimitHit with
    | true =>
        exact at_version_limited hLow hHigh hLimit (hLimited.symm.trans hLimit)
          hSame lang
    | false =>
        have hQuiet := quiet_of_agreement hOwn hLow hHigh hLimit
          (hLimited.symm.trans hLimit) hSame
        exact at_version_quiet hLow hHigh hLimit hQuiet lang
  rcases hAt with ⟨run, produced, hParsed, hReports⟩
  exact ⟨_, hParsed.parseInner hLex, hReports.errors, hReports.warnings⟩

end Check

/- A lexer of simple bindings. -/
def bindings : Logos :=
  fun text pos =>
    match text.drop pos with
    | [] => none
    | b :: rest =>
        if (ascii "let").isPrefixOf (b :: rest) then
          some (.ok .Let, ⟨pos, pos + 3⟩)
        else
          let token : Except LexError Token :=
            if b = byte ' ' then
              .ok .Whitespace
            else if b = byte '\n' then
              .ok .Newline
            else if b = byte '=' then
              .ok .Equals
            else if byte '0' ≤ b ∧ b ≤ byte '9' then
              .ok (.Int [Char.ofNat b.toNat])
            else if byte 'a' ≤ b ∧ b ≤ byte 'z' then
              .ok (.Ident [Char.ofNat b.toNat])
            else
              .error .Unknown
          some (token, ⟨pos, pos + 1⟩)

/- A root that holds the whole source. -/
def leafRoot
    (kind : SyntaxKind)
    (source : List UInt8) :
    SyntaxTree :=
  .node (.Other 0) [.node kind [.token (.Other 1) source]]

def missingBody : ParseError :=
  ⟨"missing body", ⟨5, 5⟩⟩

/- Productions that miss the body of every binding. -/
def bodylessProductions : Productions :=
  fun _ source _ _ =>
    .ok ⟨leafRoot (.Other 2) source, [missingBody], [], false, none⟩

/- `let x` reports its missing body at every version. -/
theorem version_check_proves_invariance_let :
    ∃ low,
      parseInner bindings (fun _ => "") bodylessProductions 60
          (ascii "let x") (fun _ => false) .Impl .MIN = .ok (some low) ∧
        low.errors = [missingBody] ∧
        ∀ lang, ∃ p,
          parseInner bindings (fun _ => "") bodylessProductions 60
              (ascii "let x") (fun _ => false) .Impl lang = .ok (some p) ∧
            p.errors = low.errors ∧ p.warnings = low.warnings := by
  have hOwn : OwnTexts bodylessProductions := by
    intro fileKind source rawTokens filtered produced hProduced e hMem
    cases hProduced
    rcases hMem with hMem | hMem
    · rw [List.mem_singleton.1 hMem]
      exact (plainText_of_head (c := 'm') (by decide)
        (by decide)).not_gate
    · cases hMem
  have hErrors : (parseAt bindings (fun _ => "") bodylessProductions 60
      (ascii "let x") (fun _ => false) .Impl .MIN).map Parse.errors =
      some [missingBody] := by
    decide +kernel
  rcases version_check_proves_invariance bindings (fun _ => "")
    bodylessProductions hOwn 60 (ascii "let x") (fun _ => false) .Impl
    (by decide +kernel) with ⟨low, hLow, hAll⟩
  refine ⟨low, hLow, ?_, hAll⟩
  unfold parseAt at hErrors
  rw [hLow] at hErrors
  exact Option.some.inj hErrors

def offsideOfOne : ParseError :=
  ⟨(OffsideMessage.Undentation 1 1).text, ⟨8, 9⟩⟩

/-
  Productions that tell the two token lists of `let f =⏎1` apart, and
  report at each end what the filter reports at the other.
-/
def counterfeitProductions : Productions :=
  fun _ source _ filtered =>
    if filtered.length = 7 then
      .ok ⟨leafRoot (.Other 2) source, [offsideOfOne], [], false, none⟩
    else
      .ok ⟨leafRoot .WITH_NULL_TYPE source, [],
        [offsideOfOne, offsideOfOne], false, none⟩

/- The ends agree, and F# 8 has an error more. -/
theorem version_check_misses_counterfeit :
    let source := ascii "let f =\n1"
    let parse := parseAt bindings (fun _ => "") counterfeitProductions 60
      source (fun _ => false) .Impl
    diagnosticsAreVersionInvariant bindings (fun _ => "")
        counterfeitProductions 60 source (fun _ => false) .Impl = true ∧
      (parse .MIN).map Parse.errors = some [offsideOfOne] ∧
      (parse .V8_0).map Parse.errors = some
        [⟨featureText "nullness checking" "8.0" "9.0", ⟨0, 9⟩⟩,
          offsideOfOne] := by
  refine ⟨?_, ?_, ?_⟩ <;> decide +kernel

end Cst

end Borzoi
