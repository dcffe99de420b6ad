import Borzoi.Sema.Exports

/-
  The accumulator that name resolution threads through Compile order.

  Each file is resolved against what the files before it exported, and
  then folded into the accumulator.  Two files with the same contribution
  are folded the same way.
-/

namespace Borzoi

namespace Resolve

structure EarlierType where
  file : Nat
  index : Nat
  path : Path
  arity : Nat
  accessRoot : Option Nat
deriving DecidableEq

structure ProjectItems where
  valueExports : SortedMap Path (List ExportRecord) compare := .empty
  moduleHeaders : Finset Path := ∅
  nestedModulePaths : Finset Path := ∅
  augmentationHeadPaths : Finset Path := ∅
  projectTypeSimpleNames : Finset String := ∅
  earlierTypes : SortedMap String (List (Option EarlierType)) compare := .empty
  projectModuleSimpleNames : Finset String := ∅
  realNestedModules : Finset Path := ∅
  namespacePaths : Finset Path := ∅
  modulesWithHiddenValues : Finset Path := ∅
  namespaceShadowNames : SortedMap Path (Finset String) compare := .empty
  signaturedNamespaces : Finset Path := ∅
  signaturedSlotTypeNames : SortedMap Path (Finset String) compare := .empty
  assemblyCoreAttributeAliases : CoreAttributeAliases
  opaqueHiddenValueModules : Finset Path := ∅
  opaqueCases : Finset Path := ∅
  autoOpenModulePaths : List (Path × Nat) := []
  rootContribution : Contribution := {}
  customOperations : CustomOperationNames := {}
  customOperationAliasDeclared : Bool := false
  extensionStatics : Finset String := ∅
  slotAttributeAliasDeclared : Bool := false
  coreAttributeAliasDeclared : Bool := false
  moduleOpenContributions : SortedMap Path Contribution compare := .empty
  namespaceOpenContributions : SortedMap Path Contribution compare := .empty
  caseItemIds : Finset ItemId := ∅
  attributedValueIds : Finset ItemId := ∅
  activePatternShapes : SortedMap ItemId ActivePatternShape compare := .empty
  typeQualifiedCases : SortedMap Path (ItemId × Option Nat) compare := .empty
  typePaths : SortedMap Path (Bool × SlotClass) compare := .empty
  sigScreens : List (SigScreen × Nat) := []
  implicitModuleShadows : Finset Path := ∅
  count : Nat := 0
  itemFileBases : List Nat := []

namespace ProjectItems

variable {W : Type}

def nextBase
    (p : ProjectItems) :
    Nat :=
  p.count

def trustsAttributeSpellingsOf
    (p : ProjectItems)
    (screen : SigScreen) :
    Bool :=
  coreAttributeSpellingsTrusted p.coreAttributeAliasDeclared
    p.assemblyCoreAttributeAliases screen.attributeSpellings

/- A headerless file's values live where the exports cannot reach them. -/
def noteImplicitModuleShadow
    (p : ProjectItems)
    (path : Path) :
    ProjectItems :=
  { p with
    nestedModulePaths := insert path p.nestedModulePaths
    implicitModuleShadows := insert path p.implicitModuleShadows }

/- The file's items are numbered from the count before it. -/
def openFile
    (p : ProjectItems) :
    ProjectItems :=
  { p with itemFileBases := p.itemFileBases ++ [p.count] }

def noteCoreAttributeAlias
    (p : ProjectItems)
    (declared : Bool) :
    ProjectItems :=
  { p with
    coreAttributeAliasDeclared := p.coreAttributeAliasDeclared || declared }

def noteSimpleNames
    (p : ProjectItems)
    (typeNames moduleNames : Finset String) :
    ProjectItems :=
  { p with
    projectTypeSimpleNames := p.projectTypeSimpleNames ∪ typeNames
    projectModuleSimpleNames := p.projectModuleSimpleNames ∪ moduleNames }

def closeFile
    (p : ProjectItems)
    (items : Nat) :
    ProjectItems :=
  { p with count := p.count + items }

/- The paired signature's screen is published at the signature's slot. -/
def extendScreens
    (p : ProjectItems)
    (sigScreen : Option SigScreen)
    (partner : Option Nat) :
    ProjectItems :=
  match partner, sigScreen with
  | some implIndex, some screen =>
      { p with sigScreens := p.sigScreens ++ [(screen, implIndex)] }
  | _, _ => p

def extendSignatured
    (p : ProjectItems)
    (pairedScreen : Option SigScreen) :
    ProjectItems :=
  match pairedScreen with
  | none => p
  | some screen =>
      { p with
        signaturedNamespaces := p.signaturedNamespaces ∪ screen.namespaces
        signaturedSlotTypeNames :=
          screen.namespaceSlotTypeNames.foldl
            (fun m entry => m.modify entry.1 ∅ (insert entry.2))
            p.signaturedSlotTypeNames }

/- The placements of a screened implementation are withheld. -/
def placeType
    (fileIndex : Nat)
    (screened : Bool)
    (m : SortedMap String (List (Option EarlierType)) compare)
    (t : DeclaredType)
    (index : Nat) :
    SortedMap String (List (Option EarlierType)) compare :=
  match t.path.getLast? with
  | none => m
  | some name =>
      m.modify name [] fun entries =>
        entries ++
          [if screened then none
           else some ⟨fileIndex, index, t.path, t.arity, t.accessRoot⟩]

def extendTypes
    (p : ProjectItems)
    (fileIndex : Nat)
    (screened : Bool)
    (placed : List DeclaredType)
    (unplaced : SortedMap String Nat compare) :
    ProjectItems :=
  let m := placed.zipIdx.foldl
    (fun m entry => placeType fileIndex screened m entry.1 entry.2)
    p.earlierTypes
  { p with
    earlierTypes :=
      unplaced.entries.foldl
        (fun m entry =>
          m.modify entry.1 [] (· ++ List.replicate entry.2 none)) m }

def extendContributions
    (p : ProjectItems)
    (c : FileContributions) :
    ProjectItems :=
  { p with
    rootContribution := p.rootContribution.merge c.root
    customOperations := p.customOperations.merge c.customOperations
    customOperationAliasDeclared :=
      p.customOperationAliasDeclared || c.declaresCustomOperationAlias
    extensionStatics := p.extensionStatics ∪ c.extensionStatics
    slotAttributeAliasDeclared :=
      p.slotAttributeAliasDeclared || c.declaresSlotAttributeAlias
    moduleOpenContributions :=
      c.moduleOpens.foldl
        (fun m entry => m.modify entry.1 {} (·.merge entry.2))
        p.moduleOpenContributions
    namespaceOpenContributions :=
      c.namespaceOpens.foldl
        (fun m entry => m.modify entry.1 {} (·.merge entry.2))
        p.namespaceOpenContributions }

def extendIndices
    (p : ProjectItems)
    (fileIndex : Nat)
    (idx : FileExportIndices) :
    ProjectItems :=
  { p with
    moduleHeaders := p.moduleHeaders ∪ idx.moduleHeaders.toFinset
    nestedModulePaths := p.nestedModulePaths ∪ idx.nestedModulePaths.toFinset
    augmentationHeadPaths :=
      p.augmentationHeadPaths ∪ idx.augmentationHeadPaths.toFinset
    realNestedModules := p.realNestedModules ∪ idx.realNestedModules.toFinset
    typeQualifiedCases :=
      idx.typeQualifiedCases.foldl
        (fun m entry => m.insert entry.1 entry.2) p.typeQualifiedCases
    typePaths :=
      idx.typePaths.foldl
        (fun m entry => m.insert entry.1 entry.2) p.typePaths
    namespacePaths := p.namespacePaths ∪ idx.namespacePaths.toFinset
    modulesWithHiddenValues :=
      p.modulesWithHiddenValues ∪ idx.modulesWithHiddenValues.toFinset
    opaqueHiddenValueModules :=
      p.opaqueHiddenValueModules ∪ idx.opaqueHiddenValueModules.toFinset
    namespaceShadowNames :=
      idx.namespaceShadowNames.foldl
        (fun m entry => m.modify entry.1 ∅ (insert entry.2))
        p.namespaceShadowNames
    opaqueCases := p.opaqueCases ∪ idx.opaqueCases.toFinset
    autoOpenModulePaths :=
      p.autoOpenModulePaths ++ idx.autoOpenModulePaths.map (·, fileIndex)
    valueExports :=
      idx.valueExports.foldl
        (fun m entry => m.modify entry.1 [] (· ++ [entry.2]))
        p.valueExports
    caseItemIds := p.caseItemIds ∪ idx.caseItemIds.toFinset
    attributedValueIds := p.attributedValueIds ∪ idx.attributedValueIds.toFinset
    activePatternShapes :=
      idx.activePatternShapes.foldl
        (fun m entry => m.insert entry.1 entry.2) p.activePatternShapes }

/- The screen's verdict is read after this file's own aliases are noted. -/
def exportIndices
    (p : ProjectItems)
    (file : ResolvedFile W)
    (pairedScreen : Option SigScreen) :
    FileExportIndices :=
  match pairedScreen with
  | none => .fromDecls file
  | some screen =>
      let p := p.noteCoreAttributeAlias file.declaresCoreAttributeAlias
      .fromDeclsScreened file screen (p.trustsAttributeSpellingsOf screen)

def extendWith
    (p : ProjectItems)
    (file : ResolvedFile W)
    (pairedScreen : Option SigScreen)
    (partner : Option Nat) :
    ProjectItems :=
  let fileIndex := p.itemFileBases.length
  let idx := p.exportIndices file pairedScreen
  p.openFile
    |>.extendScreens file.sigScreen partner
    |>.noteCoreAttributeAlias file.declaresCoreAttributeAlias
    |>.extendSignatured pairedScreen
    |>.noteSimpleNames file.ownTypeSimpleNames file.ownModuleSimpleNames
    |>.extendTypes fileIndex pairedScreen.isSome file.placedTypes
        file.unplacedTypes
    |>.extendContributions file.contributions
    |>.extendIndices fileIndex idx
    |>.closeFile file.exports.length

end ProjectItems

namespace ResolvedFile

variable {W : Type}

/- What the comparison of contributions establishes. -/
structure SameContribution
    (f g : ResolvedFile W) :
    Prop where
  exports : f.exports.length = g.exports.length
  indices : FileExportIndices.fromDecls f = FileExportIndices.fromDecls g
  typeNames : f.ownTypeSimpleNames = g.ownTypeSimpleNames
  placed : List.Forall₂ (fun t t' => t.sameForLaterFiles t' = true)
    f.placedTypes g.placedTypes
  unplaced : f.unplacedTypes = g.unplacedTypes
  moduleNames : f.ownModuleSimpleNames = g.ownModuleSimpleNames
  contributions : f.contributions = g.contributions
  aliases : f.declaresCoreAttributeAlias = g.declaresCoreAttributeAlias
  screen : f.sigScreen = g.sigScreen
  surface : f.sigExports = g.sigExports

theorem sameContribution_of_eq_true
    {f g : ResolvedFile W}
    (hSame : f.sameExportContribution g = true) :
    SameContribution f g := by
  unfold sameExportContribution at hSame
  simp only [Bool.and_eq_true, beq_iff_eq, decide_eq_true_eq] at hSame
  rcases hSame with
    ⟨⟨⟨⟨⟨⟨⟨⟨⟨⟨hExports, hIndices⟩, hTypeNames⟩, hLength⟩, hPlaced⟩, hUnplaced⟩,
      hModuleNames⟩, hContributions⟩, hAliases⟩, hScreen⟩, hSurface⟩
  refine ⟨hExports, hIndices, hTypeNames, ?_, hUnplaced, hModuleNames,
    hContributions, hAliases, hScreen, hSurface⟩
  apply List.forall₂_iff_zip.2
  refine ⟨hLength, ?_⟩
  intro t t' hMem
  exact List.all_eq_true.1 hPlaced (t, t') hMem

end ResolvedFile

namespace ProjectItems

variable {W : Type} {p : ProjectItems} {f g : ResolvedFile W}
variable {pairedScreen : Option SigScreen} {partner : Option Nat}

variable {screened : Bool}

theorem placeType_congr
    {fileIndex index : Nat}
    {m : SortedMap String (List (Option EarlierType)) compare}
    {t t' : DeclaredType}
    (hSame : t.sameForLaterFiles t' = true) :
    placeType fileIndex screened m t index =
      placeType fileIndex screened m t' index := by
  unfold DeclaredType.sameForLaterFiles at hSame
  simp only [Bool.and_eq_true, beq_iff_eq] at hSame
  rcases hSame with ⟨⟨hPath, hArity⟩, hRoot⟩
  unfold placeType
  rw [hPath, hArity, hRoot]

theorem foldl_placeType_congr
    {fileIndex base : Nat}
    {m : SortedMap String (List (Option EarlierType)) compare}
    {placed placed' : List DeclaredType}
    (hPlaced : List.Forall₂ (fun t t' => t.sameForLaterFiles t' = true)
      placed placed') :
    (placed.zipIdx base).foldl
        (fun m entry => placeType fileIndex screened m entry.1 entry.2) m =
      (placed'.zipIdx base).foldl
        (fun m entry => placeType fileIndex screened m entry.1 entry.2) m := by
  induction hPlaced generalizing m base with
  | nil =>
      rfl
  | cons hHead _ ih =>
      rw [List.zipIdx_cons, List.zipIdx_cons, List.foldl_cons, List.foldl_cons,
        placeType_congr hHead]
      exact ih

theorem extendTypes_congr
    {fileIndex : Nat}
    (hSame : f.SameContribution g) :
    p.extendTypes fileIndex screened f.placedTypes f.unplacedTypes =
      p.extendTypes fileIndex screened g.placedTypes g.unplacedTypes := by
  unfold extendTypes
  rw [foldl_placeType_congr hSame.placed, hSame.unplaced]

/-
  Equal contributions leave equal accumulators, provided that a screened
  derivation gives the same indices too: the comparison is of the
  unscreened one.
-/
theorem extendWith_congr
    (hSame : f.SameContribution g)
    (hScreened : p.exportIndices f pairedScreen =
      p.exportIndices g pairedScreen) :
    p.extendWith f pairedScreen partner =
      p.extendWith g pairedScreen partner := by
  unfold extendWith
  dsimp only
  rw [hScreened, hSame.screen, hSame.aliases, hSame.typeNames,
    hSame.moduleNames, extendTypes_congr hSame, hSame.contributions,
    hSame.exports]

theorem exportIndices_congr_unscreened
    (hSame : f.SameContribution g) :
    p.exportIndices f none = p.exportIndices g none :=
  hSame.indices

@[simp]
theorem extendWith_count :
    (p.extendWith f pairedScreen partner).count =
      p.count + f.exports.length := by
  have hScreens : ∀ q : ProjectItems, ∀ s : Option SigScreen,
      (q.extendScreens s partner).count = q.count := by
    intro q s
    unfold extendScreens
    split <;> rfl
  have hSignatured : ∀ q : ProjectItems,
      (q.extendSignatured pairedScreen).count = q.count := by
    intro q
    unfold extendSignatured
    split <;> rfl
  unfold extendWith
  change (extendSignatured _ pairedScreen).count + f.exports.length = _
  rw [hSignatured]
  change (extendScreens _ _ partner).count + f.exports.length = _
  rw [hScreens]
  rfl

end ProjectItems

end Resolve

end Borzoi
