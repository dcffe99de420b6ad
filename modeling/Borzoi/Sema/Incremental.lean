import Borzoi.Sema.ProjectFold
import Mathlib

/-
  Incremental resolution against the cold fold.

  The cold fold's state before a slot is a function of the Compile list.
  An incremental fold runs through the same states, and while it is in
  sync the previous list's fold ran through them too.  What keeps it in
  sync wrongly is named by `Discerning`: the comparison of a recomputed
  file reads neither its headerlessness nor its screened indices.

  Main declarations:
    * `View`
    * `viewAt`
    * `Discerning`
    * `Folded`
    * `incremental_matches_cold`
-/

namespace Borzoi

namespace Resolve

/- What the fold holds before a slot, without the allocations. -/
structure View
    (W : Type) where
  threaded : Threaded
  values : List (ResolvedFile W)

section Views

variable {T E W : Type} (walk : Walk T E W) (env : AssemblyEnv E)
variable (files : List (ProjectFile T))

def View.resolve
    (v : View W)
    (pf : ProjectFile T)
    (i : Nat) :
    ResolvedFile W :=
  resolveSlot walk env v.threaded v.values pf i
    (partnerAt (signaturePartners files) i)

def View.past
    (v : View W)
    (rf : ResolvedFile W)
    (pf : ProjectFile T)
    (i : Nat) :
    View W where
  threaded :=
    threadPast walk env v.threaded v.values rf pf i
      (partnerAt (signaturePartners files) i)
  values := v.values ++ [rf]

def viewAt :
    Nat → View W
  | 0 => ⟨Threaded.start env, []⟩
  | n + 1 =>
      match files[n]? with
      | none => viewAt n
      | some pf =>
          (viewAt n).past walk env files ((viewAt n).resolve walk env files pf n)
            pf n

def FoldState.view
    (st : FoldState W) :
    View W :=
  ⟨st.threaded, st.values⟩

end Views

section ViewFacts

variable {T E W : Type} {walk : Walk T E W} {env : AssemblyEnv E}
variable {files : List (ProjectFile T)} {pf : ProjectFile T} {i n heap : Nat}

theorem foldl_zipIdx_take_succ
    {S A : Type}
    {f : S → A × Nat → S}
    {s : S}
    {xs : List A}
    {x : A}
    (hGet : xs[n]? = some x) :
    (xs.take (n + 1)).zipIdx.foldl f s =
      f ((xs.take n).zipIdx.foldl f s) (x, n) := by
  rcases List.getElem?_eq_some_iff.1 hGet with ⟨hLt, hx⟩
  have hTake : xs.take (n + 1) = xs.take n ++ [x] := by
    rw [List.take_add_one, hGet]
    rfl
  have hLength : (xs.take n).length = n :=
    List.length_take_of_le (Nat.le_of_lt hLt)
  rw [hTake, List.zipIdx_append, List.foldl_append, hLength, Nat.zero_add]
  rfl

theorem viewAt_succ
    (hGet : files[n]? = some pf) :
    viewAt walk env files (n + 1) =
      (viewAt walk env files n).past walk env files
        ((viewAt walk env files n).resolve walk env files pf n) pf n := by
  rw [viewAt, hGet]

theorem view_push
    {st : FoldState W}
    {arc : Arc (ResolvedFile W)}
    {heap' : Nat} :
    (st.push walk env arc pf i (partnerAt (signaturePartners files) i)
        heap').view =
      st.view.past walk env files arc.val pf i := by
  unfold FoldState.view View.past FoldState.push FoldState.values
  rw [List.map_append]
  rfl

theorem coldFold_view
    (hLe : n ≤ files.length) :
    (coldFold walk env files n heap).view = viewAt walk env files n := by
  induction n with
  | zero =>
      rfl
  | succ n ih =>
      have hGet := List.getElem?_eq_getElem (Nat.lt_of_succ_le hLe)
      unfold coldFold
      rw [foldl_zipIdx_take_succ hGet, viewAt_succ hGet,
        ← ih (Nat.le_of_succ_le hLe)]
      exact view_push

theorem viewAt_values_length
    (hLe : n ≤ files.length) :
    (viewAt walk env files n).values.length = n := by
  induction n with
  | zero =>
      rfl
  | succ n ih =>
      have hGet := List.getElem?_eq_getElem (Nat.lt_of_succ_le hLe)
      rw [viewAt_succ hGet]
      unfold View.past
      rw [List.length_append, ih (Nat.le_of_succ_le hLe)]
      rfl

/- Slot `i` holds the file resolved in the state that enters it. -/
theorem viewAt_values_get
    (hLe : n ≤ files.length)
    (hLt : i < n)
    (hGet : files[i]? = some pf) :
    (viewAt walk env files n).values[i]? =
      some ((viewAt walk env files i).resolve walk env files pf i) := by
  induction n with
  | zero =>
      cases hLt
  | succ n ih =>
      have hLast := List.getElem?_eq_getElem (Nat.lt_of_succ_le hLe)
      have hLength : (viewAt walk env files n).values.length = n :=
        viewAt_values_length (Nat.le_of_succ_le hLe)
      rw [viewAt_succ hLast]
      unfold View.past
      by_cases hHere : i = n
      · subst hHere
        rw [List.getElem?_append_right (Nat.le_of_eq hLength), hLength,
          Nat.sub_self]
        rw [hGet] at hLast
        cases hLast
        rfl
      · have hBelow : i < n := by omega
        rw [List.getElem?_append_left (by rw [hLength]; exact hBelow)]
        exact ih (Nat.le_of_succ_le hLe) hBelow

end ViewFacts

section Surfaces

variable {T W : Type} {pf : ProjectFile T} {i : Nat} {partner : Option Nat}

/- What a later slot reads of an earlier one. -/
def surfaces
    (values : List (ResolvedFile W)) :
    List (Option SigScreen × List SigExport) :=
  values.map fun rf => (rf.sigScreen, rf.sigExports)

variable {rf sig sig' : ResolvedFile W} {values values' : List (ResolvedFile W)}

theorem appendSignatureExports_congr
    {sigIndex : Nat}
    (hScreen : sig.sigScreen = sig'.sigScreen)
    (hExports : sig.sigExports = sig'.sigExports) :
    rf.appendSignatureExports sig sigIndex =
      rf.appendSignatureExports sig' sigIndex := by
  have hItems : rf.appendedExports sig sigIndex =
      rf.appendedExports sig' sigIndex := by
    unfold ResolvedFile.appendedExports
    rw [hExports]
  have hDecls : rf.appendedDecls sig = rf.appendedDecls sig' := by
    unfold ResolvedFile.appendedDecls ResolvedFile.implicitHeaders
    rw [hExports, hScreen]
  unfold ResolvedFile.appendSignatureExports
  congr 1

theorem surfaces_get
    (hSame : surfaces values = surfaces values')
    {k : Nat} :
    (values[k]?.map fun rf => (rf.sigScreen, rf.sigExports)) =
      values'[k]?.map fun rf => (rf.sigScreen, rf.sigExports) := by
  have hGet := congrArg (·[k]?) hSame
  unfold surfaces at hGet
  simpa only [List.getElem?_map] using hGet

theorem materialise_congr
    (hSame : surfaces values = surfaces values') :
    materialise pf i partner values rf =
      materialise pf i partner values' rf := by
  unfold materialise
  split
  · next k hFile hPartner =>
      have hGet := surfaces_get hSame (k := k)
      cases hOld : values[k]? with
      | none =>
          rw [hOld, Option.map_none] at hGet
          rw [Option.map_eq_none_iff.1 hGet.symm]
      | some sig =>
          rw [hOld, Option.map_some] at hGet
          rcases Option.map_eq_some_iff.1 hGet.symm with ⟨sig', hNew, hPair⟩
          rw [hNew]
          have hScreen := congrArg Prod.fst hPair
          have hExports := congrArg Prod.snd hPair
          exact appendSignatureExports_congr hScreen.symm hExports.symm
  · rfl

theorem pairedScreen_congr
    (hSame : surfaces values = surfaces values') :
    pairedScreen i partner values = pairedScreen i partner values' := by
  unfold pairedScreen
  congr 1
  funext k
  have hGet := congrArg (fun o => o.bind Prod.fst) (surfaces_get hSame (k := k))
  simpa only [Option.bind_map, Function.comp_def] using hGet

theorem materialise_sigScreen :
    (materialise pf i partner values rf).sigScreen = rf.sigScreen := by
  unfold materialise
  split
  · split <;> rfl
  · rfl

end Surfaces

section Congruence

variable {T E W : Type} {walk : Walk T E W} {env : AssemblyEnv E}
variable {st : Threaded} {f g : ResolvedFile W} {paired : Option SigScreen}
variable {partner : Option Nat}

/- The comparison, with what it establishes of each half. -/
theorem sameThreading_spec
    (hSame : sameThreading env f g = true) :
    f.SameContribution g ∧
      f.wholesaleExtensionContribution env =
        g.wholesaleExtensionContribution env ∧
      f.augmentationInstanceNames = g.augmentationInstanceNames ∧
      f.augmentationStaticNames = g.augmentationStaticNames := by
  unfold sameThreading at hSame
  simp only [Bool.and_eq_true, beq_iff_eq, decide_eq_true_eq] at hSame
  rcases hSame with ⟨⟨⟨hExports, hWholesale⟩, hInstance⟩, hStatic⟩
  exact ⟨ResolvedFile.sameContribution_of_eq_true hExports, hWholesale,
    hInstance, hStatic⟩

theorem threadForward_congr
    (hSame : sameThreading env f g = true)
    (hIndices : st.preceding.exportIndices f paired =
      st.preceding.exportIndices g paired) :
    st.threadForward env f paired partner =
      st.threadForward env g paired partner := by
  rcases sameThreading_spec hSame with
    ⟨hContribution, hWholesale, hInstance, hStatic⟩
  unfold Threaded.threadForward
  rw [ProjectItems.extendWith_congr hContribution hIndices, hWholesale,
    hInstance, hStatic]

theorem readSlot_sigScreen_impl
    {pf : ProjectFile T}
    {preceding : ProjectItems}
    {ext : ExtThreading}
    (hImpl : pf.isImpl = true) :
    (readSlot walk env pf preceding ext).sigScreen = none := by
  unfold ProjectFile.isImpl at hImpl
  unfold readSlot
  split at hImpl
  · next tree hFile =>
      rw [hFile]
      exact walk.unsigned _ _ _ _
  · cases hImpl

theorem readSlot_sig
    {pf : ProjectFile T}
    {preceding : ProjectItems}
    {ext : ExtThreading}
    (hSig : pf.isImpl = false) :
    readSlot walk env pf preceding ext =
      signatureSlot walk env pf.tree pf.qnof preceding := by
  unfold ProjectFile.isImpl at hSig
  unfold readSlot ProjectFile.tree
  split at hSig
  · cases hSig
  · next tree hFile =>
      rw [hFile]

theorem resolveSlot_sig
    {pf : ProjectFile T}
    {values : List (ResolvedFile W)}
    {i : Nat}
    (hSig : pf.isImpl = false) :
    resolveSlot walk env st values pf i partner =
      signatureSlot walk env pf.tree pf.qnof st.preceding := by
  unfold resolveSlot
  rw [readSlot_sig hSig]
  unfold ProjectFile.isImpl at hSig
  unfold materialise
  split at hSig
  · cases hSig
  · next tree hFile =>
      rw [hFile]

theorem implicitShadow_sig
    {pf : ProjectFile T}
    (hSig : pf.isImpl = false) :
    implicitShadow walk pf partner = none := by
  unfold implicitShadow
  rw [hSig]
  simp

end Congruence

section Sync

variable {T E W : Type} [DecidableEq T] (walk : Walk T E W)
variable (env : AssemblyEnv E) (prevFiles newFiles : List (ProjectFile T))

/-
  The comparison of two readings of one implementation slot misses
  nothing: an unpaired file stays headerless or headed, and a paired one
  has the same screened indices when it has the same unscreened ones.
-/
structure Discerned
    (i : Nat)
    (old new : ProjectFile T) :
    Prop where
  headed : partnerAt (signaturePartners prevFiles) i = none →
    walk.isHeaderless old.tree = walk.isHeaderless new.tree
  screened : ∀ screen,
    let v := viewAt walk env prevFiles i
    let f := v.resolve walk env prevFiles old i
    let g := v.resolve walk env prevFiles new i
    pairedScreen i (partnerAt (signaturePartners prevFiles) i) v.values =
        some screen →
      FileExportIndices.fromDecls g = FileExportIndices.fromDecls f →
      v.threaded.preceding.exportIndices g (some screen) =
        v.threaded.preceding.exportIndices f (some screen)

/- Every edit of an implementation below `bound` in its slot is discerned. -/
def Discerning
    (bound : Nat) :
    Prop :=
  ∀ i old new, i + 1 < bound →
    prevFiles[i]? = some old →
    newFiles[i]? = some new →
    partnerAt (signaturePartners prevFiles) i =
      partnerAt (signaturePartners newFiles) i →
    old.qnof = new.qnof →
    old.isImpl = true →
    new.isImpl = true →
    sameTree old new = false →
    Discerned walk env prevFiles i old new

/- Both folds enter slot `n` in the same state. -/
structure Synced
    (n : Nat) :
    Prop where
  threaded : (viewAt walk env prevFiles n).threaded =
    (viewAt walk env newFiles n).threaded
  surfaces : surfaces (viewAt walk env prevFiles n).values =
    surfaces (viewAt walk env newFiles n).values

variable {walk}
variable {env}
variable {prevFiles newFiles}
variable {old new pf : ProjectFile T} {i n : Nat}

theorem eq_of_sameTree
    (hSame : sameTree old new = true) :
    old = new := by
  unfold sameTree at hSame
  rw [Bool.and_eq_true, Bool.and_eq_true, decide_eq_true_iff,
    decide_eq_true_iff] at hSame
  rcases hSame with ⟨⟨hName, hRecovery⟩, hTree⟩
  rcases old with ⟨oldFile, oldName, oldRecovery⟩
  rcases new with ⟨newFile, newName, newRecovery⟩
  dsimp only at hName hRecovery hTree
  subst hName hRecovery
  split at hTree
  · rw [of_decide_eq_true hTree]
  · rw [of_decide_eq_true hTree]
  · cases hTree

omit [DecidableEq T] in
theorem Synced.resolve_eq
    (hSync : Synced walk env prevFiles newFiles n)
    (hPartner : partnerAt (signaturePartners prevFiles) n =
      partnerAt (signaturePartners newFiles) n)
    (pf : ProjectFile T) :
    (viewAt walk env prevFiles n).resolve walk env prevFiles pf n =
      (viewAt walk env newFiles n).resolve walk env newFiles pf n := by
  unfold View.resolve resolveSlot
  rw [hPartner, hSync.threaded]
  exact materialise_congr hSync.surfaces

/- The state past a slot is the same when the threading is. -/
omit [DecidableEq T] in
theorem Synced.past
    (hSync : Synced walk env prevFiles newFiles n)
    (hPartner : partnerAt (signaturePartners prevFiles) n =
      partnerAt (signaturePartners newFiles) n)
    (hOld : prevFiles[n]? = some old)
    (hNew : newFiles[n]? = some new)
    {f g : ResolvedFile W}
    (hf : (viewAt walk env prevFiles n).resolve walk env prevFiles old n = f)
    (hg : (viewAt walk env newFiles n).resolve walk env newFiles new n = g)
    (hThread : ∀ paired,
      pairedScreen n (partnerAt (signaturePartners prevFiles) n)
          (viewAt walk env prevFiles n).values = paired →
      ((viewAt walk env prevFiles n).threaded.threadForward env f paired
          (partnerAt (signaturePartners prevFiles) n)) =
        (viewAt walk env prevFiles n).threaded.threadForward env g paired
          (partnerAt (signaturePartners prevFiles) n))
    (hShadow : implicitShadow walk old
        (partnerAt (signaturePartners prevFiles) n) =
      implicitShadow walk new (partnerAt (signaturePartners prevFiles) n))
    (hSurface : (f.sigScreen, f.sigExports) = (g.sigScreen, g.sigExports)) :
    Synced walk env prevFiles newFiles (n + 1) := by
  constructor
  · rw [viewAt_succ hOld, viewAt_succ hNew, hf, hg]
    unfold View.past threadPast
    dsimp only
    rw [hThread _ rfl, hShadow, pairedScreen_congr hSync.surfaces,
      hSync.threaded, hPartner]
  · rw [viewAt_succ hOld, viewAt_succ hNew, hf, hg]
    unfold View.past
    have hPrefix := hSync.surfaces
    unfold Resolve.surfaces at hPrefix ⊢
    rw [List.map_append, List.map_append, hPrefix, List.map_singleton,
      List.map_singleton, hSurface]

omit [DecidableEq T] in
/- A reused file leaves the folds in sync. -/
theorem Synced.reuse
    (hSync : Synced walk env prevFiles newFiles n)
    (hPartner : partnerAt (signaturePartners prevFiles) n =
      partnerAt (signaturePartners newFiles) n)
    (hOld : prevFiles[n]? = some pf)
    (hNew : newFiles[n]? = some pf) :
    Synced walk env prevFiles newFiles (n + 1) := by
  apply hSync.past hPartner hOld hNew rfl (hSync.resolve_eq hPartner _).symm
  · intro paired _
    rfl
  · rfl
  · rfl

/- Equal contributions come from files of one kind. -/
omit [DecidableEq T] in
theorem isImpl_eq_of_sameContribution
    {v : View W}
    {files : List (ProjectFile T)}
    (hSame : (v.resolve walk env files new i).SameContribution
      (v.resolve walk env files old i)) :
    old.isImpl = new.isImpl := by
  have hScreen := hSame.screen
  have hImpl : ∀ pf : ProjectFile T, pf.isImpl = true →
      (v.resolve walk env files pf i).sigScreen = none := by
    intro pf hKind
    unfold View.resolve resolveSlot
    rw [materialise_sigScreen]
    exact readSlot_sigScreen_impl hKind
  have hSig : ∀ pf : ProjectFile T, pf.isImpl = false →
      (v.resolve walk env files pf i).sigScreen ≠ none := by
    intro pf hKind
    unfold View.resolve
    rw [resolveSlot_sig hKind]
    exact Option.some_ne_none _
  cases hOldKind : old.isImpl with
  | true =>
      cases hNewKind : new.isImpl with
      | true => rfl
      | false =>
          rw [hImpl old hOldKind] at hScreen
          exact absurd hScreen (hSig new hNewKind)
  | false =>
      cases hNewKind : new.isImpl with
      | true =>
          rw [hImpl new hNewKind] at hScreen
          exact absurd hScreen.symm (hSig old hOldKind)
      | false => rfl

/- Two readings of a signature have no declarations to screen. -/
omit [DecidableEq T] in
theorem exportIndices_sig
    {v : View W}
    {files : List (ProjectFile T)}
    {p : ProjectItems}
    {paired : Option SigScreen}
    (hOld : old.isImpl = false)
    (hNew : new.isImpl = false)
    (hAliases : (v.resolve walk env files new i).declaresCoreAttributeAlias =
      (v.resolve walk env files old i).declaresCoreAttributeAlias) :
    p.exportIndices (v.resolve walk env files new i) paired =
      p.exportIndices (v.resolve walk env files old i) paired := by
  unfold View.resolve at hAliases ⊢
  rw [resolveSlot_sig hOld, resolveSlot_sig hNew] at hAliases ⊢
  unfold ProjectItems.exportIndices
  rw [hAliases]
  cases paired with
  | none => rfl
  | some screen => rfl

omit [DecidableEq T] in
/- A discerned recomputation that compares equal keeps the folds in sync. -/
theorem Synced.recompute
    (hSync : Synced walk env prevFiles newFiles n)
    (hPartner : partnerAt (signaturePartners prevFiles) n =
      partnerAt (signaturePartners newFiles) n)
    (hOld : prevFiles[n]? = some old)
    (hNew : newFiles[n]? = some new)
    (hName : old.qnof = new.qnof)
    (hDiscerned : old.isImpl = true → new.isImpl = true →
      Discerned walk env prevFiles n old new)
    (hSame : sameThreading env
      ((viewAt walk env newFiles n).resolve walk env newFiles new n)
      ((viewAt walk env prevFiles n).resolve walk env prevFiles old n) = true) :
    Synced walk env prevFiles newFiles (n + 1) := by
  rw [← hSync.resolve_eq hPartner] at hSame
  have hContribution := (sameThreading_spec hSame).1
  have hKind := isImpl_eq_of_sameContribution hContribution
  apply hSync.past hPartner hOld hNew rfl (hSync.resolve_eq hPartner _).symm
  · intro paired hPaired
    symm
    apply threadForward_congr hSame
    cases hOldKind : old.isImpl with
    | false =>
        exact exportIndices_sig hOldKind (hKind ▸ hOldKind)
          hContribution.aliases
    | true =>
        cases paired with
        | none =>
            exact ProjectItems.exportIndices_congr_unscreened hContribution
        | some screen =>
            apply (hDiscerned hOldKind (hKind ▸ hOldKind)).screened screen
              hPaired
            exact hContribution.indices
  · cases hOldKind : old.isImpl with
    | false =>
        rw [implicitShadow_sig hOldKind, implicitShadow_sig (hKind ▸ hOldKind)]
    | true =>
        have hHeaded := (hDiscerned hOldKind (hKind ▸ hOldKind)).headed
        unfold implicitShadow
        cases hPaired : partnerAt (signaturePartners prevFiles) n with
        | none => rw [hHeaded hPaired, hName, hKind]
        | some partner => rfl
  · rw [hContribution.screen, hContribution.surface]

end Sync

------------------------------------------------------------
-- Runs
------------------------------------------------------------

section Runs

variable {T E W : Type} [DecidableEq T] {walk : Walk T E W}
variable {env : AssemblyEnv E} {prevFiles newFiles : List (ProjectFile T)}
variable {prev : ResolvedProject W} {pf : ProjectFile T} {i n heap : Nat}

omit [DecidableEq T] in
theorem samePairing_spec
    (hSame : samePairing prevFiles prev newFiles pf i = true) :
    ∃ old arc, prevFiles[i]? = some old ∧ prev[i]? = some arc ∧
      partnerAt (signaturePartners prevFiles) i =
        partnerAt (signaturePartners newFiles) i ∧
      old.qnof = pf.qnof := by
  unfold samePairing at hSame
  rcases (Option.any_eq_true_iff_get _ _).1 hSame with ⟨hSome, hTest⟩
  rcases Option.isSome_iff_exists.1 hSome with ⟨⟨old, arc⟩, hGet⟩
  rw [Option.get_of_eq_some hSome hGet, Bool.and_eq_true, decide_eq_true_iff,
    decide_eq_true_iff] at hTest
  rcases List.getElem?_zip_eq_some.1 hGet with ⟨hOld, hArc⟩
  exact ⟨old, arc, hOld, hArc, hTest.1, hTest.2⟩

theorem reusable_some
    {inSync : Bool}
    {arc : Arc (ResolvedFile W)}
    (hReuse : reusable prevFiles prev newFiles inSync pf i = some arc) :
    inSync = true ∧ prevFiles[i]? = some pf ∧ prev[i]? = some arc ∧
      partnerAt (signaturePartners prevFiles) i =
        partnerAt (signaturePartners newFiles) i := by
  unfold reusable at hReuse
  rcases Option.map_eq_some_iff.1 hReuse with ⟨⟨old, arc'⟩, hFilter, hArc⟩
  rcases Option.filter_eq_some_iff.1 hFilter with ⟨hGet, hTest⟩
  rw [Bool.and_eq_true, Bool.and_eq_true] at hTest
  rcases hTest with ⟨⟨hSync, hPairing⟩, hTree⟩
  rcases samePairing_spec hPairing with ⟨_, _, _, _, hPartner, _⟩
  rcases List.getElem?_zip_eq_some.1 hGet with ⟨hOld, hPrev⟩
  rw [eq_of_sameTree hTree] at hOld
  exact ⟨hSync, hOld, hArc ▸ hPrev, hPartner⟩

theorem sameTree_of_reusable_none
    {old : ProjectFile T}
    {arc : Arc (ResolvedFile W)}
    (hReuse : reusable prevFiles prev newFiles true pf i = none)
    (hPairing : samePairing prevFiles prev newFiles pf i = true)
    (hOld : prevFiles[i]? = some old)
    (hPrev : prev[i]? = some arc) :
    sameTree old pf = false := by
  have hGet : (prevFiles.zip prev)[i]? = some (old, arc) :=
    List.getElem?_zip_eq_some.2 ⟨hOld, hPrev⟩
  unfold reusable at hReuse
  rw [Option.map_eq_none_iff, hGet, Option.filter_eq_none_iff] at hReuse
  have hTest := hReuse (old, arc) rfl
  rw [hPairing, Bool.and_true, Bool.true_and] at hTest
  exact Bool.eq_false_iff.2 hTest

/- The previous result is the cold fold of a prefix of its list. -/
structure PrefixFold
    (walk : Walk T E W)
    (env : AssemblyEnv E)
    (files : List (ProjectFile T))
    (project : ResolvedProject W) :
    Prop where
  bound : project.length ≤ files.length
  values : project.map (·.val) = (viewAt walk env files project.length).values

section

variable (hPrev : PrefixFold walk env prevFiles prev)

include hPrev

omit [DecidableEq T] in
theorem PrefixFold.get
    {arc : Arc (ResolvedFile W)}
    (hFile : prevFiles[i]? = some pf)
    (hArc : prev[i]? = some arc) :
    (viewAt walk env prevFiles i).resolve walk env prevFiles pf i = arc.val := by
  have hLt := (List.getElem?_eq_some_iff.1 hArc).1
  have hValue : (prev.map (·.val))[i]? = some arc.val := by
    rw [List.getElem?_map, hArc]
    rfl
  rw [hPrev.values, viewAt_values_get hPrev.bound hLt hFile] at hValue
  exact Option.some.inj hValue

/- One slot of the incremental fold, from a state that matches the cold one. -/
theorem incrementalStep_view
    {st : IncrementalState W}
    (hFile : newFiles[n]? = some pf)
    (hView : st.fold.view = viewAt walk env newFiles n)
    (hSync : n < prev.length → st.inSync = true →
      Synced walk env prevFiles newFiles n) :
    (incrementalStep walk env prevFiles prev newFiles st (pf, n)).fold.view =
      viewAt walk env newFiles (n + 1) := by
  rw [viewAt_succ hFile, ← hView]
  unfold incrementalStep
  dsimp only
  split
  · next arc hReuse =>
      rcases reusable_some hReuse with ⟨hIn, hOld, hArc, hPartner⟩
      have hLt := (List.getElem?_eq_some_iff.1 hArc).1
      have hSame := (hSync hLt hIn).resolve_eq hPartner pf
      rw [hPrev.get hOld hArc, ← hView] at hSame
      rw [← hSame]
      exact view_push
  · exact view_push

/- A step that stays in sync has discerned the edit of its slot. -/
theorem incrementalStep_synced
    {st : IncrementalState W}
    {bound : Nat}
    (hDiscerning : Discerning walk env prevFiles newFiles bound)
    (hBound : n + 1 < bound)
    (hFile : newFiles[n]? = some pf)
    (hView : st.fold.view = viewAt walk env newFiles n)
    (hSync : st.inSync = true → Synced walk env prevFiles newFiles n)
    (hStays : (incrementalStep walk env prevFiles prev newFiles st
      (pf, n)).inSync = true) :
    Synced walk env prevFiles newFiles (n + 1) := by
  unfold incrementalStep at hStays
  dsimp only at hStays
  split at hStays
  · next arc hReuse =>
      rcases reusable_some hReuse with ⟨hIn, hOld, _, hPartner⟩
      exact (hSync hIn).reuse hPartner hOld hFile
  · next hReuse =>
      rw [Bool.and_eq_true, Bool.and_eq_true] at hStays
      rcases hStays with ⟨⟨hIn, hPairing⟩, hSame⟩
      rcases samePairing_spec hPairing with
        ⟨old, arc, hOld, hArc, hPartner, hName⟩
      rw [hIn] at hReuse
      rw [hArc, Option.any_some, ← hPrev.get hOld hArc] at hSame
      have hTree := sameTree_of_reusable_none hReuse hPairing hOld hArc
      apply (hSync hIn).recompute hPartner hOld hFile hName
      · intro hOldKind hNewKind
        exact hDiscerning n old pf hBound hOld hFile hPartner hName hOldKind
          hNewKind hTree
      · rw [← hView]
        exact hSame

theorem incrementalFold_view
    {horizon : Nat}
    (hDiscerning : Discerning walk env prevFiles newFiles
      (min horizon prev.length))
    (hHorizon : horizon ≤ newFiles.length)
    (hLe : n ≤ horizon) :
    let st := incrementalFold walk env prevFiles prev newFiles n heap
    st.fold.view = viewAt walk env newFiles n ∧
      (n < min horizon prev.length → st.inSync = true →
        Synced walk env prevFiles newFiles n) := by
  induction n with
  | zero =>
      constructor
      · rfl
      · intro _ _
        exact ⟨rfl, rfl⟩
  | succ n ih =>
      rcases ih (Nat.le_of_succ_le hLe) with ⟨hView, hSync⟩
      have hFile := List.getElem?_eq_getElem
        (Nat.lt_of_lt_of_le (Nat.lt_of_succ_le hLe) hHorizon)
      have hStep : incrementalFold walk env prevFiles prev newFiles (n + 1) heap =
          incrementalStep walk env prevFiles prev newFiles
            (incrementalFold walk env prevFiles prev newFiles n heap)
            (newFiles[n], n) :=
        foldl_zipIdx_take_succ hFile
      dsimp only
      rw [hStep]
      constructor
      · apply incrementalStep_view hPrev hFile hView
        intro hLt hIn
        exact hSync (lt_min (Nat.lt_of_succ_le hLe) hLt) hIn
      · intro hBound hStays
        apply incrementalStep_synced hPrev hDiscerning hBound hFile hView _ hStays
        intro hIn
        exact hSync (Nat.lt_of_succ_lt hBound) hIn

end

variable (walk)
variable (env)

/-
  The projects that a session folds: cold, or incrementally from the one
  before over a discerning edit.
-/
inductive Folded :
    List (ProjectFile T) → ResolvedProject W → Prop where
  | cold
      {files : List (ProjectFile T)}
      {project : ResolvedProject W}
      {horizon heap heap' : Nat}
      (hFold : resolveProjectFilesPrefix walk env files horizon heap =
        some (project, heap')) :
      Folded files project
  | incremental
      {prevFiles newFiles : List (ProjectFile T)}
      {prev project : ResolvedProject W}
      {horizon heap heap' : Nat}
      {reused : List Bool}
      (hPrev : Folded prevFiles prev)
      (hDiscerning : Discerning walk env prevFiles newFiles
        (min horizon prev.length))
      (hFold : resolveProjectFilesPrefixIncremental walk env prevFiles prev
        newFiles horizon heap = some (project, reused, heap')) :
      Folded newFiles project

variable {walk}
variable {env}

omit [DecidableEq T] in
theorem coldFold_values
    {files : List (ProjectFile T)}
    {horizon : Nat}
    (hHorizon : horizon ≤ files.length) :
    (coldFold walk env files horizon heap).resolved.map (·.val) =
      (viewAt walk env files horizon).values :=
  congrArg View.values (coldFold_view hHorizon)

theorem incrementalFold_values
    {horizon : Nat}
    (hPrev : PrefixFold walk env prevFiles prev)
    (hDiscerning : Discerning walk env prevFiles newFiles
      (min horizon prev.length))
    (hHorizon : horizon ≤ newFiles.length) :
    (incrementalFold walk env prevFiles prev newFiles horizon
        heap).fold.resolved.map (·.val) =
      (viewAt walk env newFiles horizon).values :=
  congrArg View.values
    (incrementalFold_view hPrev hDiscerning hHorizon (Nat.le_refl _)).1

/- A fold's values tell its length. -/
omit [DecidableEq T] in
theorem prefixFold_of_values
    {files : List (ProjectFile T)}
    {project : ResolvedProject W}
    {horizon : Nat}
    (hHorizon : horizon ≤ files.length)
    (hValues : project.map (·.val) = (viewAt walk env files horizon).values) :
    PrefixFold walk env files project := by
  have hLength : project.length = horizon := by
    have hBoth := congrArg List.length hValues
    rw [List.length_map, viewAt_values_length hHorizon] at hBoth
    exact hBoth
  constructor
  · rw [hLength]
    exact hHorizon
  · rw [hLength]
    exact hValues

theorem Folded.prefixFold
    {files : List (ProjectFile T)}
    {project : ResolvedProject W}
    (hFolded : Folded walk env files project) :
    PrefixFold walk env files project := by
  induction hFolded with
  | @cold files project horizon heap heap' hFold =>
      unfold resolveProjectFilesPrefix at hFold
      split at hFold
      · next hHorizon =>
          cases hFold
          exact prefixFold_of_values hHorizon (coldFold_values hHorizon)
      · cases hFold
  | @incremental prevFiles newFiles prev project horizon heap heap' reused
      hPrev hDiscerning hFold ih =>
      unfold resolveProjectFilesPrefixIncremental at hFold
      split at hFold
      · next hHorizon =>
          cases hFold
          exact prefixFold_of_values hHorizon
            (incrementalFold_values ih hDiscerning hHorizon)
      · cases hFold

/-
  Over discerning edits the incremental fold returns the resolved files of
  the cold fold, and fails its assertion when the cold fold does.
-/
theorem incremental_matches_cold
    {horizon heap' : Nat}
    (hPrev : Folded walk env prevFiles prev)
    (hDiscerning : Discerning walk env prevFiles newFiles
      (min horizon prev.length)) :
    ((resolveProjectFilesPrefixIncremental walk env prevFiles prev newFiles
        horizon heap).map fun result => result.1.map (·.val)) =
      (resolveProjectFilesPrefix walk env newFiles horizon heap').map
        fun result => result.1.map (·.val) := by
  unfold resolveProjectFilesPrefixIncremental resolveProjectFilesPrefix
  by_cases hHorizon : horizon ≤ newFiles.length
  · rw [if_pos hHorizon, if_pos hHorizon, Option.map_some, Option.map_some,
      incrementalFold_values hPrev.prefixFold hDiscerning hHorizon,
      coldFold_values hHorizon]
  · rw [if_neg hHorizon, if_neg hHorizon]
    rfl

end Runs

/-
  `A.fs` holds a bare expression, and then an empty `namespace global`;
  `B.fs` reads `A.value`, which a referenced assembly provides too.
-/
inductive SampleTree where
  | bare (parse : Nat)
  | globalNamespace
  | reader
deriving DecidableEq

theorem mirrored_nil :
    ∀ decl ∈ ([] : List ExportDecl), ∀ k, decl.kind.itemIndex = some k →
      k < ([] : List ExportedItem).length :=
  List.forall_mem_nil _

theorem named_nil :
    ∀ t ∈ ([] : List DeclaredType), t.path ≠ [] :=
  List.forall_mem_nil _

/- A reading that exports nothing. -/
def silentFile
    (base : Nat)
    (deferred : Bool) :
    ResolvedFile Bool where
  defs := []
  attributeResolutions := .empty
  ownTypeSimpleNames := ∅
  placedTypes := []
  unplacedTypes := .empty
  ownModuleSimpleNames := ∅
  ownAbbrevTypeSimpleNames := ∅
  contributions := {}
  declaresCoreAttributeAlias := false
  attributeShapeUnknowable := false
  augmentationInstanceNames := ∅
  augmentationStaticNames := ∅
  augmentationNamesUnknowable := false
  precedingAugmentationInstanceNames := ∅
  precedingAugmentationStaticNames := ∅
  precedingDeclaresExtensionSource := false
  exports := []
  itemBase := base
  exportDecls := []
  sigScreen := none
  sigExports := []
  recovery := .unretained
  walked := deferred
  numbered := by
    intro k it hGet
    cases hGet
  ownDefs := by
    intro it hMem
    cases hMem
  mirrored := mirrored_nil
  named := named_nil
  attributed := by
    intro range d hGet
    cases hGet

/- The reader's use defers when the project may own the path. -/
def sampleWalk :
    Walk SampleTree Unit Bool where
  resolveFile tree preceding _ _ :=
    silentFile preceding.nextBase
      (decide (tree = .reader ∧ ["A"] ∈ preceding.nestedModulePaths))
  signatureSurface _ _ :=
    ⟨⟨[], ∅, [], [], [], ∅, ∅, ∅, [], [], ∅⟩, [], []⟩
  signatureContributions _ _ _ := (false, {})
  signatureTypeDecls _ := .empty
  isHeaderless tree :=
    match tree with
    | .bare _ => true
    | _ => false
  signatureWalk := false
  numbered := by
    intro _ _ _ _
    rfl
  unsigned := by
    intro _ _ _ _
    rfl

def sampleEnv :
    AssemblyEnv Unit where
  entity _ := ⟨"", [], .classType⟩
  coreAttributeAliases := ⟨false, ∅⟩
  index := ()

def sampleFiles
    (first : SampleTree) :
    List (ProjectFile SampleTree) :=
  [⟨.impl first, ⟨"A", "A"⟩, .reported []⟩,
    ⟨.impl .reader, ⟨"B", "B"⟩, .reported []⟩]

def samplePrev :
    ResolvedProject Bool :=
  (coldFold sampleWalk sampleEnv (sampleFiles (.bare 0)) 2 0).resolved

theorem samplePrev_folded :
    resolveProjectFilesPrefix sampleWalk sampleEnv (sampleFiles (.bare 0)) 2 0 =
      some (samplePrev, 2) :=
  rfl

/- Which uses defer, in a fold's result. -/
def deferredUses
    (values : List (ResolvedFile Bool)) :
    List Bool :=
  values.map (·.walked)

/- The reader is kept with the shadow of the module that is gone. -/
theorem incremental_keeps_stale_reader :
    resolveProjectFilesPrefix sampleWalk sampleEnv (sampleFiles (.bare 0)) 2 0 =
        some (samplePrev, 2) ∧
      ((resolveProjectFilesPrefixIncremental sampleWalk sampleEnv
          (sampleFiles (.bare 0)) samplePrev (sampleFiles .globalNamespace) 2
          2).map fun result => result.1.map (·.val)) ≠
        (resolveProjectFilesPrefix sampleWalk sampleEnv
          (sampleFiles .globalNamespace) 2 0).map
          fun result => result.1.map (·.val) := by
  refine ⟨samplePrev_folded, ?_⟩
  intro hEq
  have hUses := congrArg (Option.map deferredUses) hEq
  revert hUses
  decide

/- A second parse of the bare expression keeps the reader. -/
theorem incremental_matches_cold_reparsed :
    Discerning sampleWalk sampleEnv (sampleFiles (.bare 0))
        (sampleFiles (.bare 1)) 2 ∧
      ((resolveProjectFilesPrefixIncremental sampleWalk sampleEnv
          (sampleFiles (.bare 0)) samplePrev (sampleFiles (.bare 1)) 2
          2).map fun result => result.1.map (·.val)) =
        (resolveProjectFilesPrefix sampleWalk sampleEnv
          (sampleFiles (.bare 1)) 2 0).map
          fun result => result.1.map (·.val) := by
  have hDiscerning : Discerning sampleWalk sampleEnv (sampleFiles (.bare 0))
      (sampleFiles (.bare 1)) 2 := by
    intro i old new hBound hOld hNew _ _ _ _ _
    have hFirst : i = 0 := by omega
    subst hFirst
    cases hOld
    cases hNew
    constructor
    · intro _
      rfl
    · intro screen v f g hPaired
      cases hPaired
  exact ⟨hDiscerning,
    incremental_matches_cold (Folded.cold samplePrev_folded) hDiscerning⟩

end Resolve

end Borzoi
