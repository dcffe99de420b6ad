import Borzoi.Sema.ProjectItems
import Mathlib.Logic.Function.Basic

/-
  The Compile-order folds of name resolution.

  The cold fold resolves every file against what the files before it
  contributed.  The incremental fold keeps a previous fold's resolved
  files, as the same allocations, while the state that enters them is
  unchanged.  The walk of one file and the reading of a signature are
  given.
-/

namespace Borzoi

namespace Resolve

/- A tree stands for its node: equal trees are one parse's clones. -/
inductive SourceFile
    (T : Type) where
  | impl (tree : T)
  | sig (tree : T)
deriving DecidableEq

structure QualifiedNameOfFile where
  deduped : String
  raw : String
deriving DecidableEq

structure ProjectFile
    (T : Type) where
  file : SourceFile T
  qnof : QualifiedNameOfFile
  recovery : SyntaxRecovery
deriving DecidableEq

namespace ProjectFile

variable {T : Type}

def isImpl
    (pf : ProjectFile T) :
    Bool :=
  match pf.file with
  | .impl _ => true
  | .sig _ => false

def tree
    (pf : ProjectFile T) :
    T :=
  match pf.file with
  | .impl t => t
  | .sig t => t

end ProjectFile

/- The implicit anonymous module that a headerless file's contents live in. -/
def implicitModulePath
    (qnof : QualifiedNameOfFile) :
    Path :=
  ((qnof.raw.toList.splitOn '.').filter fun seg => !seg.isEmpty).map
    String.ofList

structure Pairing where
  pending : String → Option Nat
  partner : List (Option Nat)

/- A signature pairs with the first following implementation of its name. -/
def pairStep
    {T : Type}
    (st : Pairing)
    (entry : ProjectFile T × Nat) :
    Pairing :=
  let name := entry.1.qnof.deduped
  match entry.1.file with
  | .sig _ =>
      { st with pending := Function.update st.pending name (some entry.2) }
  | .impl _ =>
      match st.pending name with
      | some sig =>
          { pending := Function.update st.pending name none
            partner :=
              (st.partner.set entry.2 (some sig)).set sig (some entry.2) }
      | none => st

def signaturePartners
    {T : Type}
    (files : List (ProjectFile T)) :
    List (Option Nat) :=
  (files.zipIdx.foldl pairStep
    ⟨fun _ => none, List.replicate files.length none⟩).partner

def partnerAt
    (partners : List (Option Nat))
    (i : Nat) :
    Option Nat :=
  partners[i]?.join

structure SignatureSurface where
  screen : SigScreen
  defs : List Def
  exports : List SigExport

/-
  How one file is read.  An implementation's exports are numbered from
  the entering count, and only a signature's slot carries a screen.
-/
structure Walk
    (T E W : Type) where
  resolveFile :
    T → ProjectItems → AssemblyEnv E → SyntaxRecovery → ResolvedFile W
  signatureSurface : T → QualifiedNameOfFile → SignatureSurface
  signatureContributions :
    T → ProjectItems → AssemblyEnv E → Bool × FileContributions
  signatureTypeDecls : T → SortedMap String Nat compare
  isHeaderless : T → Bool
  signatureWalk : W
  numbered : ∀ tree preceding env recovery,
    (resolveFile tree preceding env recovery).itemBase = preceding.nextBase
  unsigned : ∀ tree preceding env recovery,
    (resolveFile tree preceding env recovery).sigScreen = none

structure ExtThreading where
  wholesale : Bool := false
  instanceNames : Finset String := ∅
  staticNames : Finset String := ∅

section Slot

variable {T E W : Type} (walk : Walk T E W) (env : AssemblyEnv E)

def signatureSlot
    (tree : T)
    (qnof : QualifiedNameOfFile)
    (preceding : ProjectItems) :
    ResolvedFile W where
  defs := (walk.signatureSurface tree qnof).defs
  attributeResolutions := .empty
  ownTypeSimpleNames := ∅
  placedTypes := []
  unplacedTypes := walk.signatureTypeDecls tree
  ownModuleSimpleNames := ∅
  ownAbbrevTypeSimpleNames := ∅
  contributions := (walk.signatureContributions tree preceding env).2
  declaresCoreAttributeAlias :=
    (walk.signatureContributions tree preceding env).1
  attributeShapeUnknowable := false
  augmentationInstanceNames := ∅
  augmentationStaticNames := ∅
  augmentationNamesUnknowable := false
  precedingAugmentationInstanceNames := ∅
  precedingAugmentationStaticNames := ∅
  precedingDeclaresExtensionSource := false
  exports := []
  itemBase := preceding.nextBase
  exportDecls := []
  sigScreen := some (walk.signatureSurface tree qnof).screen
  sigExports := (walk.signatureSurface tree qnof).exports
  recovery := .unretained
  walked := walk.signatureWalk
  numbered := by
    intro k it hGet
    cases hGet
  ownDefs := by
    intro it hMem
    cases hMem
  mirrored := by
    intro decl hMem
    cases hMem
  named := by
    intro t hMem
    cases hMem
  attributed := by
    intro range d hGet
    cases hGet

/- The file's own reading, stamped with the extension state it entered. -/
def readSlot
    (pf : ProjectFile T)
    (preceding : ProjectItems)
    (ext : ExtThreading) :
    ResolvedFile W :=
  match pf.file with
  | .sig tree => signatureSlot walk env tree pf.qnof preceding
  | .impl tree =>
      { walk.resolveFile tree preceding env pf.recovery with
        precedingDeclaresExtensionSource := ext.wholesale
        precedingAugmentationInstanceNames := ext.instanceNames
        precedingAugmentationStaticNames := ext.staticNames }

/- The paired signature's surface is published at the implementation. -/
def materialise
    (pf : ProjectFile T)
    (i : Nat)
    (partner : Option Nat)
    (resolved : List (ResolvedFile W))
    (rf : ResolvedFile W) :
    ResolvedFile W :=
  match pf.file, partner.filter (· < i) with
  | .impl _, some sig =>
      match resolved[sig]? with
      | some slot => rf.appendSignatureExports slot sig
      | none => rf
  | _, _ => rf

/- The screen of the signature that a file is the implementation of. -/
def pairedScreen
    (i : Nat)
    (partner : Option Nat)
    (resolved : List (ResolvedFile W)) :
    Option SigScreen :=
  (partner.filter (· < i)).bind fun sig =>
    resolved[sig]?.bind (·.sigScreen)

/- The implicit module of an unpaired headerless implementation. -/
def implicitShadow
    (pf : ProjectFile T)
    (partner : Option Nat) :
    Option Path :=
  if partner.isNone && pf.isImpl && walk.isHeaderless pf.tree &&
      !(implicitModulePath pf.qnof).isEmpty then
    some (implicitModulePath pf.qnof)
  else none

end Slot

structure Threaded where
  preceding : ProjectItems
  ext : ExtThreading

namespace Threaded

variable {T E W : Type} (walk : Walk T E W) (env : AssemblyEnv E)

def start :
    Threaded where
  preceding := { assemblyCoreAttributeAliases := env.coreAttributeAliases }
  ext := {}

def threadForward
    (st : Threaded)
    (rf : ResolvedFile W)
    (paired : Option SigScreen)
    (partner : Option Nat) :
    Threaded where
  preceding := st.preceding.extendWith rf paired partner
  ext :=
    { wholesale := st.ext.wholesale || rf.wholesaleExtensionContribution env
      instanceNames := st.ext.instanceNames ∪ rf.augmentationInstanceNames
      staticNames := st.ext.staticNames ∪ rf.augmentationStaticNames }

def noteShadow
    (st : Threaded)
    (shadow : Option Path) :
    Threaded :=
  match shadow with
  | some path =>
      { st with preceding := st.preceding.noteImplicitModuleShadow path }
  | none => st

end Threaded

/- A shared handle: two handles are one allocation when `ptr` agrees. -/
structure Arc
    (A : Type) where
  ptr : Nat
  val : A

abbrev ResolvedProject
    (W : Type) :=
  List (Arc (ResolvedFile W))

structure FoldState
    (W : Type) where
  threaded : Threaded
  resolved : ResolvedProject W
  heap : Nat

section Folds

variable {T E W : Type} (walk : Walk T E W) (env : AssemblyEnv E)

def FoldState.values
    (st : FoldState W) :
    List (ResolvedFile W) :=
  st.resolved.map (·.val)

def FoldState.start
    (heap : Nat) :
    FoldState W :=
  ⟨Threaded.start env, [], heap⟩

/- Resolve the file at `i` in the state that enters it. -/
def resolveSlot
    (st : Threaded)
    (resolved : List (ResolvedFile W))
    (pf : ProjectFile T)
    (i : Nat)
    (partner : Option Nat) :
    ResolvedFile W :=
  materialise pf i partner resolved
    (readSlot walk env pf st.preceding st.ext)

/- The threaded state after `rf` in the slot of `pf`. -/
def threadPast
    (st : Threaded)
    (resolved : List (ResolvedFile W))
    (rf : ResolvedFile W)
    (pf : ProjectFile T)
    (i : Nat)
    (partner : Option Nat) :
    Threaded :=
  (st.threadForward env rf (pairedScreen i partner resolved) partner).noteShadow
    (implicitShadow walk pf partner)

def FoldState.push
    (st : FoldState W)
    (arc : Arc (ResolvedFile W))
    (pf : ProjectFile T)
    (i : Nat)
    (partner : Option Nat)
    (heap : Nat) :
    FoldState W where
  threaded := threadPast walk env st.threaded st.values arc.val pf i partner
  resolved := st.resolved ++ [arc]
  heap := heap

def coldStep
    (partners : List (Option Nat))
    (st : FoldState W)
    (entry : ProjectFile T × Nat) :
    FoldState W :=
  let partner := partnerAt partners entry.2
  let rf := resolveSlot walk env st.threaded st.values entry.1 entry.2 partner
  st.push walk env ⟨st.heap, rf⟩ entry.1 entry.2 partner (st.heap + 1)

def coldFold
    (files : List (ProjectFile T))
    (horizon heap : Nat) :
    FoldState W :=
  (files.take horizon).zipIdx.foldl
    (coldStep walk env (signaturePartners files)) (FoldState.start env heap)

/- `none` is the failed assertion on the horizon. -/
def resolveProjectFilesPrefix
    (files : List (ProjectFile T))
    (horizon heap : Nat) :
    Option (ResolvedProject W × Nat) :=
  if horizon ≤ files.length then
    let st := coldFold walk env files horizon heap
    some (st.resolved, st.heap)
  else none

variable [DecidableEq T]

def sameTree
    (prev new : ProjectFile T) :
    Bool :=
  decide (prev.qnof = new.qnof) && decide (prev.recovery = new.recovery) &&
    match prev.file, new.file with
    | .impl a, .impl b => decide (a = b)
    | .sig a, .sig b => decide (a = b)
    | _, _ => false

/- The recomputed file leaves the threaded state as the previous one did. -/
def sameThreading
    (rf prev : ResolvedFile W) :
    Bool :=
  rf.sameExportContribution prev &&
    rf.wholesaleExtensionContribution env ==
      prev.wholesaleExtensionContribution env &&
    decide (rf.augmentationInstanceNames = prev.augmentationInstanceNames) &&
    decide (rf.augmentationStaticNames = prev.augmentationStaticNames)

structure IncrementalState
    (W : Type) where
  fold : FoldState W
  inSync : Bool
  reused : List Bool

section Step

variable (prevFiles : List (ProjectFile T)) (prev : ResolvedProject W)
variable (newFiles : List (ProjectFile T))

def samePairing
    (pf : ProjectFile T)
    (i : Nat) :
    Bool :=
  (prevFiles.zip prev)[i]?.any fun old =>
    decide (partnerAt (signaturePartners prevFiles) i =
      partnerAt (signaturePartners newFiles) i) &&
      decide (old.1.qnof = pf.qnof)

/- The previous allocation that stands for the file at `i`. -/
def reusable
    (inSync : Bool)
    (pf : ProjectFile T)
    (i : Nat) :
    Option (Arc (ResolvedFile W)) :=
  ((prevFiles.zip prev)[i]?.filter fun old =>
    inSync && samePairing prevFiles prev newFiles pf i &&
      sameTree old.1 pf).map (·.2)

def incrementalStep
    (st : IncrementalState W)
    (entry : ProjectFile T × Nat) :
    IncrementalState W :=
  let pf := entry.1
  let i := entry.2
  let partner := partnerAt (signaturePartners newFiles) i
  match reusable prevFiles prev newFiles st.inSync pf i with
  | some arc =>
      { fold := st.fold.push walk env arc pf i partner st.fold.heap
        inSync := st.inSync
        reused := st.reused ++ [true] }
  | none =>
      let rf := resolveSlot walk env st.fold.threaded st.fold.values pf i partner
      { fold := st.fold.push walk env ⟨st.fold.heap, rf⟩ pf i partner
          (st.fold.heap + 1)
        inSync := st.inSync && samePairing prevFiles prev newFiles pf i &&
          prev[i]?.any fun old => sameThreading env rf old.val
        reused := st.reused ++ [false] }

def incrementalFold
    (horizon heap : Nat) :
    IncrementalState W :=
  (newFiles.take horizon).zipIdx.foldl
    (incrementalStep walk env prevFiles prev newFiles)
    ⟨FoldState.start env heap, true, []⟩

def resolveProjectFilesPrefixIncremental
    (horizon heap : Nat) :
    Option (ResolvedProject W × List Bool × Nat) :=
  if horizon ≤ newFiles.length then
    let st := incrementalFold walk env prevFiles prev newFiles horizon heap
    some (st.fold.resolved, st.reused, st.fold.heap)
  else none

end Step

end Folds

end Resolve

end Borzoi
