import Borzoi.Program.SortedMap
import Mathlib.Data.Finset.Basic

/-
  What one resolved file contributes to the files after it.

  A file's cross-file declarations form one source-ordered list.  Every
  index that a later file reads is derived from it, and a paired signature
  screens the derivation.
-/

namespace Borzoi

namespace Resolve

abbrev Path :=
  List String

abbrev ItemId :=
  Nat

abbrev DefId :=
  Nat

abbrev TextRange :=
  Nat × Nat

inductive EntityKind where
  | classType
  | structType
  | interface
  | enum
  | delegate
  | moduleType
  | union
  | record
  | abbreviation
  | exception
  | measure
deriving DecidableEq

structure Entity where
  name : String
  namespace_ : Path
  kind : EntityKind

structure CoreAttributeAliases where
  certain : Bool
  possible : Finset String

/- The referenced assemblies; `index` is what only the walk reads. -/
structure AssemblyEnv
    (E : Type) where
  entity : Nat → Entity
  coreAttributeAliases : CoreAttributeAliases
  index : E

namespace AssemblyEnv

variable {E : Type}

def isExtensionAttribute
    (env : AssemblyEnv E)
    (handle : Nat) :
    Bool :=
  let e := env.entity handle
  e.name == "ExtensionAttribute" &&
    e.namespace_ == ["System", "Runtime", "CompilerServices"]

def isAbbreviation
    (env : AssemblyEnv E)
    (handle : Nat) :
    Bool :=
  (env.entity handle).kind == .abbreviation

end AssemblyEnv

def attributeLookupNames
    (spelling : String) :
    List String :=
  [spelling, spelling ++ "Attribute"] ++
    ((spelling.dropSuffix? "Attribute").map (·.toString)).toList

def coreAttributeSpellingsTrusted
    (aliasDeclared : Bool)
    (aliases : CoreAttributeAliases)
    (spellings : Finset String) :
    Bool :=
  !aliasDeclared && !aliases.certain &&
    decide (∀ s ∈ spellings,
      ∀ name ∈ attributeLookupNames s, name ∉ aliases.possible)

inductive CaseKind where
  | union (requireQualified : Bool)
  | enum
  | exception
deriving DecidableEq

structure SigRoot where
  path : Path
  autoOpen : Bool
  implicit : Bool
deriving DecidableEq

structure SigScreen where
  roots : List SigRoot
  names : Finset String
  autoOpenNested : List Path
  autoOpenTypeContainers : List Path
  valuePaths : List Path
  exportedValuePaths : Finset Path
  exportedCasePaths : Finset Path
  namespaces : Finset Path
  namespaceSlotTypeNames : List (Path × String)
  namespaceUnexportedNames : List (Path × String)
  attributeSpellings : Finset String
deriving DecidableEq

/- One export that a signature stashes for its implementation's slot. -/
structure SigExport where
  name : String
  qualified : Option Path
  path : Path
  defId : DefId
  accessRootLen : Option Nat
  case : Option CaseKind
  typeQualified : Option Path
  attributed : Bool
  pos : Nat
deriving DecidableEq

structure ActivePatternShape where
  total : Bool
  singleCase : Bool
  arity : Option Nat
deriving DecidableEq

inductive SlotClass where
  | evicts
  | keeps
  | unknown
deriving DecidableEq

/- Where an exported item's binder lives. -/
inductive ExportDef where
  | own (id : DefId)
  | sig (file : Nat) (id : DefId)
deriving DecidableEq

structure ExportedItem where
  name : String
  qualified : Option Path
  id : ItemId
  exportDef : ExportDef
  case : Option CaseKind
  accessRootLen : Option Nat
  attributed : Bool
deriving DecidableEq

namespace ExportedItem

def isCase
    (it : ExportedItem) :
    Bool :=
  it.case.isSome

/- The binder in the declaring file's own arena. -/
def ownDef
    (it : ExportedItem) :
    Option DefId :=
  match it.exportDef with
  | .own d => some d
  | .sig _ _ => none

end ExportedItem

inductive ExportDeclKind where
  | item (index : Option Nat) (typeQualified : Option Path)
  | typeName (info : Option (Bool × SlotClass)) (autoOpen : Bool)
  | typeAugmentation
  | moduleName (header autoOpen isPrivate : Bool)
  | moduleAbbrev
  | exceptionTycon
  | externFn (name : Path)
  | opaqueCase
  | namespaceName
  | activePatternCase (index : Option Nat) (shape : ActivePatternShape)
deriving DecidableEq

namespace ExportDeclKind

/- The position among the file's exports that a declaration mirrors. -/
def itemIndex :
    ExportDeclKind → Option Nat
  | .item index _ => index
  | .activePatternCase index _ => index
  | _ => none

end ExportDeclKind

structure ExportDecl where
  path : Path
  pos : Nat
  anonymousRoot : Bool
  kind : ExportDeclKind
deriving DecidableEq

structure DeclaredType where
  defId : DefId
  path : Path
  arity : Nat
  accessRoot : Option Nat

namespace DeclaredType

def sameForLaterFiles
    (t t' : DeclaredType) :
    Bool :=
  t.path == t'.path && t.arity == t'.arity &&
    t.accessRoot == t'.accessRoot

end DeclaredType

structure Contribution where
  names : Finset String := ∅
  values : Finset String := ∅
  unlisted : Bool := false
deriving DecidableEq

namespace Contribution

def merge
    (c other : Contribution) :
    Contribution where
  names := c.names ∪ other.names
  values := c.values ∪ other.values
  unlisted := c.unlisted || other.unlisted

end Contribution

structure CustomOperationNames where
  names : Finset String := ∅
  unlisted : Bool := false
deriving DecidableEq

namespace CustomOperationNames

def merge
    (c other : CustomOperationNames) :
    CustomOperationNames where
  names := c.names ∪ other.names
  unlisted := c.unlisted || other.unlisted

end CustomOperationNames

structure FileContributions where
  root : Contribution := {}
  extensionStatics : Finset String := ∅
  moduleOpens : List (Path × Contribution) := []
  namespaceOpens : List (Path × Contribution) := []
  customOperations : CustomOperationNames := {}
  declaresCustomOperationAlias : Bool := false
  declaresSlotAttributeAlias : Bool := false
deriving DecidableEq

inductive DefKind where
  | value (isFunction : Bool)
  | other
deriving DecidableEq

/- A binder, with the name it is keyed by in the name environment. -/
structure Def where
  key : String
  kind : DefKind

inductive Resolution where
  | localDef (id : DefId)
  | item (id : ItemId)
  | earlierFileType (file index : Nat)
  | entity (handle : Nat)
  | member (parent index : Nat)
  | unionCase (union case : Nat)
  | deferred
  | unresolved
deriving DecidableEq

inductive SyntaxRecovery where
  | reported (spans : List TextRange)
  | unretained
deriving DecidableEq

/-
  The result of resolving one file.  `walked` is what no fold reads: the
  resolution map, the diagnostics and the traces.
-/
structure ResolvedFile
    (W : Type) where
  defs : List Def
  attributeResolutions : SortedMap TextRange Resolution lexOrd.compare
  ownTypeSimpleNames : Finset String
  placedTypes : List DeclaredType
  unplacedTypes : SortedMap String Nat compare
  ownModuleSimpleNames : Finset String
  ownAbbrevTypeSimpleNames : Finset String
  contributions : FileContributions
  declaresCoreAttributeAlias : Bool
  attributeShapeUnknowable : Bool
  augmentationInstanceNames : Finset String
  augmentationStaticNames : Finset String
  augmentationNamesUnknowable : Bool
  precedingAugmentationInstanceNames : Finset String
  precedingAugmentationStaticNames : Finset String
  precedingDeclaresExtensionSource : Bool
  exports : List ExportedItem
  itemBase : Nat
  exportDecls : List ExportDecl
  sigScreen : Option SigScreen
  sigExports : List SigExport
  recovery : SyntaxRecovery
  walked : W
  numbered : ∀ k it, exports[k]? = some it → it.id = itemBase + k
  ownDefs : ∀ it ∈ exports, ∀ d, it.exportDef = .own d → d < defs.length
  mirrored : ∀ decl ∈ exportDecls, ∀ k, decl.kind.itemIndex = some k →
    k < exports.length
  named : ∀ t ∈ placedTypes, t.path ≠ []
  attributed : ∀ range d,
    attributeResolutions.get range = some (.localDef d) → d < defs.length

namespace ResolvedFile

variable {E W : Type}

def attributeMayBe
    (rf : ResolvedFile W)
    (range : TextRange)
    (env : AssemblyEnv E)
    (isTarget : Nat → Bool) :
    Bool :=
  match rf.attributeResolutions.get range with
  | none => false
  | some .deferred => true
  | some (.entity h) => env.isAbbreviation h || isTarget h
  | some (.localDef id) =>
      match rf.defs[id]? with
      | some d => decide (d.key ∈ rf.ownAbbrevTypeSimpleNames)
      | none => true
  | some _ => true

def attributesMayDeclareExtension
    (rf : ResolvedFile W)
    (env : AssemblyEnv E) :
    Bool :=
  rf.attributeShapeUnknowable ||
    rf.attributeResolutions.entries.any fun entry =>
      rf.attributeMayBe entry.1 env env.isExtensionAttribute

end ResolvedFile

------------------------------------------------------------
-- Export Indices
------------------------------------------------------------

structure ExportRecord where
  id : ItemId
  accessRootLen : Option Nat
  isCase : Bool
  patternOnly : Bool
deriving DecidableEq

structure FileExportIndices where
  valueExports : List (Path × ExportRecord) := []
  caseItemIds : List ItemId := []
  attributedValueIds : List ItemId := []
  activePatternShapes : List (ItemId × ActivePatternShape) := []
  moduleHeaders : List Path := []
  nestedModulePaths : List Path := []
  augmentationHeadPaths : List Path := []
  realNestedModules : List Path := []
  namespacePaths : List Path := []
  modulesWithHiddenValues : List Path := []
  opaqueHiddenValueModules : List Path := []
  opaqueCases : List Path := []
  typeQualifiedCases : List (Path × ItemId × Option Nat) := []
  typePaths : List (Path × Bool × SlotClass) := []
  autoOpenModulePaths : List Path := []
  namespaceShadowNames : List (Path × String) := []
deriving DecidableEq

/- Where the names that a hidden-value marker fears come from. -/
inductive HiddenNames where
  | sigDeclared
  | borrowed
deriving DecidableEq

def supersededByALaterValue
    (decls : List ExportDecl)
    (case : ExportDecl) :
    Bool :=
  decls.any fun d =>
    match d.kind with
    | .item _ _ => d.path == case.path && decide (case.pos < d.pos)
    | _ => false

namespace FileExportIndices

def pushHidden
    (fi : FileExportIndices)
    (path : Path)
    (names : HiddenNames) :
    FileExportIndices :=
  { fi with
    opaqueHiddenValueModules :=
      match names with
      | .borrowed => fi.opaqueHiddenValueModules ++ [path]
      | .sigDeclared => fi.opaqueHiddenValueModules
    modulesWithHiddenValues := fi.modulesWithHiddenValues ++ [path] }

def pushContainerHidden
    (fi : FileExportIndices)
    (path : Path)
    (names : HiddenNames) :
    FileExportIndices :=
  match path with
  | [] => fi
  | _ :: _ => fi.pushHidden path.dropLast names

/- An item that crosses the boundary with its identity. -/
def pushItem
    (fi : FileExportIndices)
    (it : ExportedItem)
    (typeQualified : Option Path) :
    FileExportIndices :=
  { fi with
    valueExports :=
      match it.qualified with
      | some path =>
          fi.valueExports ++
            [(path, ⟨it.id, it.accessRootLen, it.isCase, false⟩)]
      | none => fi.valueExports
    caseItemIds :=
      if it.isCase then fi.caseItemIds ++ [it.id] else fi.caseItemIds
    attributedValueIds :=
      if it.attributed then fi.attributedValueIds ++ [it.id]
      else fi.attributedValueIds
    typeQualifiedCases :=
      match typeQualified with
      | some tq =>
          fi.typeQualifiedCases ++ [(tq, it.id, it.accessRootLen)]
      | none => fi.typeQualifiedCases }

/- An index outside the exports does not occur (`ResolvedFile.mirrored`). -/
def deriveItem
    (exports : List ExportedItem)
    (screened : Option (SigScreen × Bool))
    (fi : FileExportIndices)
    (path : Path)
    (index : Option Nat)
    (typeQualified : Option Path) :
    FileExportIndices :=
  match index.bind fun k => exports[k]? with
  | none => fi.pushContainerHidden path .sigDeclared
  | some it =>
      match screened, it.exportDef with
      | some (screen, trust), .own _ =>
          -- The signature names every bare value it exposes directly
          -- under one of its namespaces.
          let inSigNamespace :=
            trust && path != [] && decide (path.dropLast ∈ screen.namespaces)
          if inSigNamespace then fi
          else fi.pushContainerHidden path .sigDeclared
      | _, _ => fi.pushItem it typeQualified

def deriveType
    (screened : Option (SigScreen × Bool))
    (fi : FileExportIndices)
    (decl : ExportDecl)
    (info : Option (Bool × SlotClass))
    (autoOpen : Bool) :
    FileExportIndices :=
  let fi :=
    if decl.anonymousRoot then fi
    else
      { fi with
        nestedModulePaths := fi.nestedModulePaths ++ [decl.path]
        typePaths :=
          match info with
          | some payload =>
              fi.typePaths ++
                [(decl.path,
                  if screened.isSome then (false, .unknown) else payload)]
          | none => fi.typePaths }
  if autoOpen then fi.pushContainerHidden decl.path .borrowed else fi

def deriveModule
    (screened : Option (SigScreen × Bool))
    (fi : FileExportIndices)
    (path : Path)
    (header autoOpen isPrivate : Bool) :
    FileExportIndices :=
  let fi :=
    if header then
      { fi with moduleHeaders := fi.moduleHeaders ++ [path] }
    else
      { fi with
        realNestedModules := fi.realNestedModules ++ [path]
        nestedModulePaths := fi.nestedModulePaths ++ [path] }
  -- The signature's attribute is authoritative in both directions.
  let effectiveAutoOpen :=
    match screened with
    | none => autoOpen
    | some (screen, _) =>
        screen.roots.any fun r => r.autoOpen && r.path == path
  if effectiveAutoOpen && !isPrivate then
    { fi with autoOpenModulePaths := fi.autoOpenModulePaths ++ [path] }
  else fi

def deriveActivePattern
    (exports : List ExportedItem)
    (screened : Option (SigScreen × Bool))
    (fi : FileExportIndices)
    (path : Path)
    (index : Option Nat)
    (shape : ActivePatternShape) :
    FileExportIndices :=
  match index.bind fun k => exports[k]? with
  | none => fi.pushContainerHidden path .sigDeclared
  | some it =>
      match screened, it.exportDef with
      | some _, .own _ => fi.pushContainerHidden path .sigDeclared
      | _, _ =>
          { fi with
            valueExports := fi.valueExports ++
              [(path, ⟨it.id, it.accessRootLen, true, true⟩)]
            caseItemIds := fi.caseItemIds ++ [it.id]
            activePatternShapes := fi.activePatternShapes ++ [(it.id, shape)] }

def deriveDecl
    (decls : List ExportDecl)
    (exports : List ExportedItem)
    (screened : Option (SigScreen × Bool))
    (fi : FileExportIndices)
    (decl : ExportDecl) :
    FileExportIndices :=
  match decl.kind with
  | .item index typeQualified =>
      deriveItem exports screened fi decl.path index typeQualified
  | .typeName info autoOpen =>
      deriveType screened fi decl info autoOpen
  | .typeAugmentation =>
      if decl.anonymousRoot then fi
      else
        { fi with
          augmentationHeadPaths := fi.augmentationHeadPaths ++ [decl.path] }
  | .moduleName header autoOpen isPrivate =>
      if decl.anonymousRoot then fi
      else deriveModule screened fi decl.path header autoOpen isPrivate
  | .moduleAbbrev =>
      if decl.anonymousRoot then fi
      else
        FileExportIndices.pushHidden
          { fi with
            nestedModulePaths := fi.nestedModulePaths ++ [decl.path] }
          decl.path .sigDeclared
  | .exceptionTycon =>
      if decl.anonymousRoot then fi
      else
        { fi with nestedModulePaths := fi.nestedModulePaths ++ [decl.path] }
  | .opaqueCase =>
      if supersededByALaterValue decls decl then fi
      else { fi with opaqueCases := fi.opaqueCases ++ [decl.path] }
  | .externFn name =>
      let fi :=
        if !decl.anonymousRoot && !name.isEmpty then
          { fi with
            nestedModulePaths := fi.nestedModulePaths ++ [decl.path ++ name] }
        else fi
      fi.pushHidden decl.path .sigDeclared
  | .namespaceName =>
      { fi with namespacePaths := fi.namespacePaths ++ [decl.path] }
  | .activePatternCase index shape =>
      deriveActivePattern exports screened fi decl.path index shape

/- What the screen adds after the declarations. -/
def deriveScreen
    (fi : FileExportIndices)
    (screen : SigScreen) :
    FileExportIndices :=
  let fi := screen.roots.foldl
    (fun fi root => fi.pushHidden root.path .sigDeclared) fi
  let fi :=
    { fi with
      namespaceShadowNames :=
        fi.namespaceShadowNames ++ screen.namespaceUnexportedNames }
  let fi := screen.autoOpenNested.foldl
    (fun fi path =>
      FileExportIndices.pushHidden
        { fi with autoOpenModulePaths := fi.autoOpenModulePaths ++ [path] }
        path .sigDeclared) fi
  screen.autoOpenTypeContainers.foldl
    (fun fi path => fi.pushHidden path .borrowed) fi

def derive
    (decls : List ExportDecl)
    (exports : List ExportedItem)
    (screened : Option (SigScreen × Bool)) :
    FileExportIndices :=
  let fi := decls.foldl (deriveDecl decls exports screened) {}
  match screened with
  | some (screen, _) => fi.deriveScreen screen
  | none =>
      -- No signature bounds the file, so every marker is opaque.
      { fi with opaqueHiddenValueModules := fi.modulesWithHiddenValues }

variable {W : Type}

def fromDecls
    (file : ResolvedFile W) :
    FileExportIndices :=
  derive file.exportDecls file.exports none

def fromDeclsScreened
    (file : ResolvedFile W)
    (screen : SigScreen)
    (trustAttributeSpellings : Bool) :
    FileExportIndices :=
  derive file.exportDecls file.exports (some (screen, trustAttributeSpellings))

end FileExportIndices

namespace ResolvedFile

variable {E W : Type}

def sameExportContribution
    (rf other : ResolvedFile W) :
    Bool :=
  rf.exports.length == other.exports.length &&
    decide (FileExportIndices.fromDecls rf =
      FileExportIndices.fromDecls other) &&
    decide (rf.ownTypeSimpleNames = other.ownTypeSimpleNames) &&
    rf.placedTypes.length == other.placedTypes.length &&
    ((rf.placedTypes.zip other.placedTypes).all fun pair =>
      pair.1.sameForLaterFiles pair.2) &&
    decide (rf.unplacedTypes = other.unplacedTypes) &&
    decide (rf.ownModuleSimpleNames = other.ownModuleSimpleNames) &&
    decide (rf.contributions = other.contributions) &&
    rf.declaresCoreAttributeAlias == other.declaresCoreAttributeAlias &&
    decide (rf.sigScreen = other.sigScreen) &&
    decide (rf.sigExports = other.sigExports)

def wholesaleExtensionContribution
    (rf : ResolvedFile W)
    (env : AssemblyEnv E) :
    Bool :=
  rf.augmentationNamesUnknowable || rf.attributesMayDeclareExtension env

/- The declarations that publish a headerless pair's implicit module. -/
def implicitHeader
    (root : SigRoot) :
    List ExportDecl :=
  ((List.range (root.path.length - 1)).map fun k =>
    ⟨root.path.take (k + 1), 0, false, .namespaceName⟩) ++
    [⟨root.path, 0, false, .moduleName true false false⟩]

def implicitHeaders
    (sig : ResolvedFile W) :
    List ExportDecl :=
  match sig.sigScreen with
  | none => []
  | some screen => (screen.roots.filter (·.implicit)).flatMap implicitHeader

def sigItem
    (base sigIndex : Nat)
    (ex : SigExport) :
    ExportedItem where
  name := ex.name
  qualified := ex.qualified
  id := base
  exportDef := .sig sigIndex ex.defId
  case := ex.case
  accessRootLen := ex.accessRootLen
  attributed := ex.attributed

def sigDecl
    (index : Nat)
    (ex : SigExport) :
    ExportDecl where
  path := ex.path
  pos := ex.pos
  anonymousRoot := false
  kind := .item (some index) ex.typeQualified

section Append

variable (rf : ResolvedFile W) (sig : ResolvedFile W) (sigIndex : Nat)

def appendedExports :
    List ExportedItem :=
  rf.exports ++
    sig.sigExports.mapIdx fun k ex =>
      sigItem (rf.itemBase + (rf.exports.length + k)) sigIndex ex

def appendedDecls :
    List ExportDecl :=
  rf.exportDecls ++ implicitHeaders sig ++
    sig.sigExports.mapIdx fun k ex =>
      sigDecl (rf.exports.length + k) ex

theorem appendedExports_length :
    (rf.appendedExports sig sigIndex).length =
      rf.exports.length + sig.sigExports.length := by
  unfold appendedExports
  rw [List.length_append, List.length_mapIdx]

theorem appendedExports_numbered
    (k : Nat)
    (it : ExportedItem)
    (hGet : (rf.appendedExports sig sigIndex)[k]? = some it) :
    it.id = rf.itemBase + k := by
  unfold appendedExports at hGet
  by_cases hOwn : k < rf.exports.length
  · rw [List.getElem?_append_left hOwn] at hGet
    exact rf.numbered k it hGet
  · rw [List.getElem?_append_right (Nat.le_of_not_lt hOwn),
      List.getElem?_mapIdx, Option.map_eq_some_iff] at hGet
    rcases hGet with ⟨ex, _, hItem⟩
    have hId := congrArg ExportedItem.id hItem
    change rf.itemBase + (rf.exports.length + (k - rf.exports.length)) =
      it.id at hId
    rw [← hId, Nat.add_sub_of_le (Nat.le_of_not_lt hOwn)]

theorem appendedExports_ownDefs
    (it : ExportedItem)
    (hMem : it ∈ rf.appendedExports sig sigIndex)
    (d : DefId)
    (hOwn : it.exportDef = .own d) :
    d < rf.defs.length := by
  rcases List.mem_append.1 hMem with hOld | hNew
  · exact rf.ownDefs it hOld d hOwn
  · rcases List.mem_mapIdx.1 hNew with ⟨k, hLt, hItem⟩
    rw [← hItem] at hOwn
    cases hOwn

theorem itemIndex_implicitHeaders
    (decl : ExportDecl)
    (hMem : decl ∈ implicitHeaders sig) :
    decl.kind.itemIndex = none := by
  unfold implicitHeaders at hMem
  split at hMem
  · cases hMem
  · rcases List.mem_flatMap.1 hMem with ⟨root, _, hHeader⟩
    rcases List.mem_append.1 hHeader with hNamespace | hModule
    · rcases List.mem_map.1 hNamespace with ⟨k, _, hDecl⟩
      rw [← hDecl]
      rfl
    · rw [List.mem_singleton.1 hModule]
      rfl

theorem appendedDecls_mirrored
    (decl : ExportDecl)
    (hMem : decl ∈ rf.appendedDecls sig)
    (k : Nat)
    (hIndex : decl.kind.itemIndex = some k) :
    k < (rf.appendedExports sig sigIndex).length := by
  rw [appendedExports_length]
  rcases List.mem_append.1 hMem with hOld | hNew
  · rcases List.mem_append.1 hOld with hOwn | hHeader
    · exact Nat.lt_add_right _ (rf.mirrored decl hOwn k hIndex)
    · rw [itemIndex_implicitHeaders sig decl hHeader] at hIndex
      cases hIndex
  · rcases List.mem_mapIdx.1 hNew with ⟨j, hLt, hDecl⟩
    rw [← hDecl] at hIndex
    cases hIndex
    exact Nat.add_lt_add_left hLt _

/-
  The paired signature's stashed surface becomes this implementation's
  contribution, numbered after its own exports.
-/
def appendSignatureExports :
    ResolvedFile W :=
  { rf with
    exports := rf.appendedExports sig sigIndex
    exportDecls := rf.appendedDecls sig
    numbered := rf.appendedExports_numbered sig sigIndex
    ownDefs := rf.appendedExports_ownDefs sig sigIndex
    mirrored := rf.appendedDecls_mirrored sig sigIndex }

end Append

end ResolvedFile

end Resolve

end Borzoi
