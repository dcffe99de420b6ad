import Borzoi.Directives.LineStore
import Borzoi.Sema.InferProject

/-
  The owners of project-global item ids.

  Every file of a fold owns the ids that follow those of the files before
  it.  The accumulator finds the owner of an id among the bases, a
  project by scanning the ranges, and both lead to the file that exported
  it; the binder is in the paired signature exactly for the exports that
  the signature published there.

  Main declarations:
    * `ProjectItems.fileOf`
    * `ResolvedFile.ownsItem`
    * `itemDef`
    * `signaturePartners_sound`
    * `item_ids_partition`
-/

namespace Borzoi

namespace Resolve

open Directives (partitionPoint)

/- The file of Compile order whose range of ids holds `id`. -/
def ProjectItems.fileOf
    (p : ProjectItems)
    (id : Nat) :
    Nat :=
  partitionPoint (fun base => decide (base ≤ id)) p.itemFileBases - 1

section Lookups

variable {W : Type}

def ResolvedFile.ownsItem
    (rf : ResolvedFile W)
    (id : Nat) :
    Bool :=
  decide (rf.itemBase ≤ id) &&
    decide (id - rf.itemBase < rf.exports.length)

/- The export of a file that an id names. -/
def ResolvedFile.exportOf
    (rf : ResolvedFile W)
    (id : Nat) :
    Option ExportedItem :=
  if rf.itemBase ≤ id then rf.exports[id - rf.itemBase]? else none

def definitionAt
    (project : ResolvedProject W)
    (file : Nat)
    (d : DefId) :
    Option (Nat × Def) :=
  project[file]?.bind fun arc =>
    arc.val.defs[d]?.map fun definition => (file, definition)

/- The file and the binder that a handle names. -/
def itemDef
    (project : ResolvedProject W)
    (res : Resolution) :
    Option (Nat × Def) :=
  match res with
  | .item id =>
      (project.zipIdx.findSome? fun entry =>
        (entry.1.val.exportOf id).map fun item => (entry.2, item)).bind
        fun found =>
          match found.2.exportDef with
          | .own d => definitionAt project found.1 d
          | .sig file d => definitionAt project file d
  | .earlierFileType file index =>
      project[file]?.bind fun arc =>
        arc.val.placedTypes[index]?.bind fun t =>
          definitionAt project file t.defId
  | _ => none

end Lookups

variable {i k sig : Nat}

section Pairs

variable {T : Type} {files : List (ProjectFile T)}

/- A signature and an implementation of one name. -/
def PairsWith
    (files : List (ProjectFile T))
    (sig impl : Nat) :
    Prop :=
  ∃ pfs pfi, files[sig]? = some pfs ∧ files[impl]? = some pfi ∧
    pfs.isImpl = false ∧ pfi.isImpl = true ∧
    pfs.qnof.deduped = pfi.qnof.deduped

/- What the pairing keeps over the first `n` files. -/
structure Pairing.Sound
    (files : List (ProjectFile T))
    (n : Nat)
    (st : Pairing) :
    Prop where
  pending : ∀ name sig, st.pending name = some sig → sig < n ∧
    ∃ pf, files[sig]? = some pf ∧ pf.isImpl = false ∧
      pf.qnof.deduped = name
  partner : ∀ i sig, partnerAt st.partner i = some sig → sig < i →
    PairsWith files sig i

theorem partnerAt_set
    {partners : List (Option Nat)}
    {i j : Nat}
    {x : Option Nat}
    (hGet : partnerAt (partners.set i x) j = some k) :
    i = j ∧ x = some k ∨ partnerAt partners j = some k := by
  unfold partnerAt at hGet ⊢
  rw [List.getElem?_set] at hGet
  split at hGet
  · next hHere =>
      split at hGet
      · exact Or.inl ⟨hHere, hGet⟩
      · cases hGet
  · exact Or.inr hGet

theorem Pairing.Sound.step
    {n : Nat}
    {st : Pairing}
    {pf : ProjectFile T}
    (hSound : st.Sound files n)
    (hGet : files[n]? = some pf) :
    (pairStep st (pf, n)).Sound files (n + 1) := by
  have hEarlier : ∀ name sig, st.pending name = some sig →
      sig < n + 1 ∧ ∃ pf, files[sig]? = some pf ∧ pf.isImpl = false ∧
        pf.qnof.deduped = name := by
    intro name sig hPending
    rcases hSound.pending name sig hPending with ⟨hLt, hFile⟩
    exact ⟨Nat.lt_succ_of_lt hLt, hFile⟩
  unfold pairStep
  dsimp only
  cases hFile : pf.file with
  | sig tree =>
      have hSig : pf.isImpl = false := by
        unfold ProjectFile.isImpl
        rw [hFile]
      refine ⟨?_, hSound.partner⟩
      intro name sig hPending
      by_cases hName : name = pf.qnof.deduped
      · rw [hName] at hPending ⊢
        dsimp only at hPending
        rw [Function.update_self] at hPending
        cases hPending
        exact ⟨Nat.lt_succ_self n, pf, hGet, hSig, rfl⟩
      · dsimp only at hPending
        rw [Function.update_of_ne hName] at hPending
        exact hEarlier name sig hPending
  | impl tree =>
      have hImpl : pf.isImpl = true := by
        unfold ProjectFile.isImpl
        rw [hFile]
      cases hPaired : st.pending pf.qnof.deduped with
      | none =>
          exact ⟨hEarlier, hSound.partner⟩
      | some sig =>
          rcases hSound.pending _ sig hPaired with
            ⟨hLt, pfs, hGetSig, hSig, hName⟩
          refine ⟨?_, ?_⟩
          · intro name sig' hPending
            by_cases hSame : name = pf.qnof.deduped
            · rw [hSame] at hPending
              dsimp only at hPending
              rw [Function.update_self] at hPending
              cases hPending
            · dsimp only at hPending
              rw [Function.update_of_ne hSame] at hPending
              exact hEarlier name sig' hPending
          · intro i k hPartner hBefore
            rcases partnerAt_set hPartner with ⟨rfl, hImplIndex⟩ | hPartner
            · cases hImplIndex
              omega
            · rcases partnerAt_set hPartner with ⟨rfl, hSigIndex⟩ | hOld
              · cases hSigIndex
                exact ⟨pfs, pf, hGetSig, hGet, hSig, hImpl, hName⟩
              · exact hSound.partner i k hOld hBefore

/- An earlier partner is a signature of the implementation's name. -/
theorem signaturePartners_sound
    (hPartner : partnerAt (signaturePartners files) i = some sig)
    (hBefore : sig < i) :
    PairsWith files sig i := by
  have hStart : Pairing.Sound files 0
      ⟨fun _ => none, List.replicate files.length none⟩ := by
    refine ⟨?_, ?_⟩
    · intro name k hPending
      cases hPending
    · intro j k hGet _
      unfold partnerAt at hGet
      dsimp only at hGet
      rw [List.getElem?_replicate] at hGet
      split at hGet
      · cases hGet
      · cases hGet
  have hRun : ∀ n, n ≤ files.length →
      Pairing.Sound files n ((files.take n).zipIdx.foldl pairStep
        ⟨fun _ => none, List.replicate files.length none⟩) := by
    intro n hLe
    induction n with
    | zero => exact hStart
    | succ n ih =>
        have hGet := List.getElem?_eq_getElem (Nat.lt_of_succ_le hLe)
        rw [foldl_zipIdx_take_succ hGet]
        exact (ih (Nat.le_of_succ_le hLe)).step hGet
  have hAll := hRun files.length (Nat.le_refl _)
  rw [List.take_length] at hAll
  exact hAll.partner i sig hPartner hBefore

end Pairs

/- A partition point is where the predicate stops to hold. -/
theorem partitionPoint_eq
    {A : Type}
    {holds : A → Bool}
    {xs : List A}
    (hLe : k ≤ xs.length)
    (hParted : ∀ (j : Nat) (x : A), xs[j]? = some x →
      (holds x = true ↔ j < k)) :
    partitionPoint holds xs = k := by
  induction xs generalizing k with
  | nil =>
      rw [List.length_nil] at hLe
      exact (Nat.le_zero.1 hLe).symm
  | cons x rest ih =>
      have hHead := hParted 0 x rfl
      unfold partitionPoint at ih ⊢
      cases k with
      | zero =>
          have hNot : ¬ holds x = true := fun hHolds =>
            absurd (hHead.1 hHolds) (Nat.lt_irrefl 0)
          rw [List.takeWhile_cons_of_neg hNot]
          rfl
      | succ k =>
          rw [List.takeWhile_cons_of_pos (hHead.2 (Nat.succ_pos k)),
            List.length_cons]
          apply congrArg (· + 1)
          apply ih (Nat.le_of_succ_le_succ hLe)
          intro j y hGet
          rw [hParted (j + 1) y hGet]
          exact Nat.succ_lt_succ_iff

/- A scan finds what only one index has. -/
theorem findSome?_zipIdx
    {A B : Type}
    {f : A × Nat → Option B}
    {xs : List A}
    {x : A}
    {b : B}
    (hGet : xs[i]? = some x)
    (hHere : f (x, i) = some b)
    (hOthers : ∀ (j : Nat) (y : A), xs[j]? = some y → j ≠ i →
      f (y, j) = none) :
    xs.zipIdx.findSome? f = some b := by
  have hMem : (x, i) ∈ xs.zipIdx :=
    List.mk_mem_zipIdx_iff_getElem?.2 hGet
  cases hFound : xs.zipIdx.findSome? f with
  | none =>
      rw [List.findSome?_eq_none_iff.1 hFound (x, i) hMem] at hHere
      cases hHere
  | some b' =>
      rcases List.exists_of_findSome?_eq_some hFound with
        ⟨⟨y, j⟩, hMem', hThere⟩
      have hGet' := List.mk_mem_zipIdx_iff_getElem?.1 hMem'
      by_cases hSame : j = i
      · subst hSame
        rw [hGet] at hGet'
        cases hGet'
        rw [hHere] at hThere
        exact hThere.symm
      · rw [hOthers j y hGet' hSame] at hThere
        cases hThere

section Ranges

variable {T E W : Type} {walk : Walk T E W} {env : AssemblyEnv E}
variable {files : List (ProjectFile T)} {project : ResolvedProject W}
variable {arc other : Arc (ResolvedFile W)} {pf : ProjectFile T}
variable {heap n i j : Nat}

theorem exportsBefore_mono
    (hLe : i ≤ j) :
    exportsBefore project i ≤ exportsBefore project j := by
  induction j, hLe using Nat.le_induction with
  | base => exact Nat.le_refl _
  | succ j _ ih =>
      cases hGet : project[j]? with
      | none =>
          unfold exportsBefore at ih ⊢
          rw [List.take_add_one, hGet, Option.toList_none, List.append_nil]
          exact ih
      | some arc =>
          rw [exportsBefore_succ hGet]
          exact Nat.le_add_right_of_le ih

/- The range of a file ends where the next one starts. -/
theorem range_end
    (hNumbered : NumberedProject project)
    (hGet : project[i]? = some arc)
    (hGet' : project[j]? = some other)
    (hLt : i < j) :
    arc.val.itemBase + arc.val.exports.length ≤ other.val.itemBase := by
  rw [hNumbered i arc hGet, hNumbered j other hGet',
    ← exportsBefore_succ hGet]
  exact exportsBefore_mono hLt

variable {it : ExportedItem} {id : Nat} {p : ProjectItems} {rf : ResolvedFile W}

theorem ownsItem_iff
    {id : Nat} :
    rf.ownsItem id = true ↔
      rf.itemBase ≤ id ∧ id < rf.itemBase + rf.exports.length := by
  unfold ResolvedFile.ownsItem
  rw [Bool.and_eq_true, decide_eq_true_eq, decide_eq_true_eq]
  constructor
  · rintro ⟨hLe, hLt⟩
    exact ⟨hLe, by omega⟩
  · rintro ⟨hLe, hLt⟩
    exact ⟨hLe, by omega⟩

/- Of the files only the one that exported an id owns it. -/
theorem ownsItem_unique
    (hNumbered : NumberedProject project)
    (hGet : project[i]? = some arc)
    (hOwns : arc.val.ownsItem id = true)
    (hGet' : project[j]? = some other) :
    other.val.ownsItem id = true ↔ j = i := by
  constructor
  · intro hOwns'
    rw [ownsItem_iff] at hOwns hOwns'
    rcases Nat.lt_trichotomy i j with hBelow | hSame | hAbove
    · have hEnd := range_end hNumbered hGet hGet' hBelow
      omega
    · exact hSame.symm
    · have hEnd := range_end hNumbered hGet' hGet hAbove
      omega
  · rintro rfl
    rw [hGet] at hGet'
    cases hGet'
    exact hOwns

theorem exportOf_none
    (hOwns : ¬ rf.ownsItem id = true) :
    rf.exportOf id = none := by
  rw [ownsItem_iff] at hOwns
  unfold ResolvedFile.exportOf
  split
  · next hLe =>
      apply List.getElem?_eq_none
      omega
  · rfl

/- The owner by the accumulator's bases. -/
theorem fileOf_owner
    (hBases : p.itemFileBases = project.map (·.val.itemBase))
    (hNumbered : NumberedProject project)
    (hGet : project[i]? = some arc)
    (hOwns : arc.val.ownsItem id = true) :
    p.fileOf id = i := by
  rw [ownsItem_iff] at hOwns
  have hPoint : partitionPoint (fun base => decide (base ≤ id))
      p.itemFileBases = i + 1 := by
    apply partitionPoint_eq
    · rw [hBases, List.length_map]
      exact (List.getElem?_eq_some_iff.1 hGet).1
    · intro j base hBase
      rw [hBases, List.getElem?_map] at hBase
      rcases Option.map_eq_some_iff.1 hBase with ⟨other, hGet', rfl⟩
      rw [decide_eq_true_eq, Nat.lt_succ_iff]
      constructor
      · intro hLe
        by_contra hAbove
        have hEnd := range_end hNumbered hGet hGet' (Nat.lt_of_not_le hAbove)
        omega
      · intro hBelow
        rcases Nat.lt_or_eq_of_le hBelow with hLt | hSame
        · have hEnd := range_end hNumbered hGet' hGet hLt
          omega
        · rw [hSame, hGet] at hGet'
          cases hGet'
          exact hOwns.1
  unfold ProjectItems.fileOf
  rw [hPoint]
  exact Nat.add_sub_cancel i 1

/- The scan of a project stops at the owner. -/
theorem itemDef_owner
    (hNumbered : NumberedProject project)
    (hGet : project[i]? = some arc)
    (hExport : arc.val.exportOf id = some it) :
    itemDef project (.item id) =
      match it.exportDef with
      | .own d => definitionAt project i d
      | .sig file d => definitionAt project file d := by
  have hOwns : arc.val.ownsItem id = true := by
    by_contra hNot
    rw [exportOf_none hNot] at hExport
    cases hExport
  have hFound : (project.zipIdx.findSome? fun entry =>
      (entry.1.val.exportOf id).map fun item => (entry.2, item)) =
        some (i, it) := by
    apply findSome?_zipIdx hGet
    · dsimp only
      rw [hExport]
      rfl
    · intro j other hGet' hApart
      have hNot : ¬ other.val.ownsItem id = true := fun hOwns' =>
        hApart ((ownsItem_unique hNumbered hGet hOwns hGet').1 hOwns')
      dsimp only
      rw [exportOf_none hNot]
      rfl
  unfold itemDef
  dsimp only
  rw [hFound]
  rfl

theorem extendWith_itemFileBases
    {paired : Option SigScreen}
    {partner : Option Nat} :
    (p.extendWith rf paired partner).itemFileBases =
      p.itemFileBases ++ [p.count] := by
  have hScreens : ∀ q : ProjectItems, ∀ s : Option SigScreen,
      (q.extendScreens s partner).itemFileBases = q.itemFileBases := by
    intro q s
    unfold ProjectItems.extendScreens
    split
    · rfl
    · rfl
  have hSignatured : ∀ q : ProjectItems,
      (q.extendSignatured paired).itemFileBases = q.itemFileBases := by
    intro q
    unfold ProjectItems.extendSignatured
    split
    · rfl
    · rfl
  unfold ProjectItems.extendWith
  change (ProjectItems.extendSignatured _ paired).itemFileBases = _
  rw [hSignatured]
  change (ProjectItems.extendScreens _ _ partner).itemFileBases = _
  rw [hScreens]
  rfl

/- The accumulator's bases are those of the files, in Compile order. -/
theorem coldFold_bases
    (hLe : n ≤ files.length) :
    (coldFold walk env files n heap).threaded.preceding.itemFileBases =
      (coldFold walk env files n heap).resolved.map (·.val.itemBase) := by
  induction n with
  | zero => rfl
  | succ n ih =>
      have hGet := List.getElem?_eq_getElem (Nat.lt_of_succ_le hLe)
      have hBefore := ih (Nat.le_of_succ_le hLe)
      unfold coldFold at hBefore ⊢
      rw [foldl_zipIdx_take_succ hGet]
      generalize (files.take n).zipIdx.foldl
        (coldStep walk env (signaturePartners files))
        (FoldState.start env heap) = st at hBefore ⊢
      unfold coldStep
      dsimp only
      generalize partnerAt (signaturePartners files) n = partner
      have hBase : (resolveSlot walk env st.threaded st.values files[n] n
          partner).itemBase = st.threaded.preceding.count :=
        resolveSlot_itemBase
      generalize resolveSlot walk env st.threaded st.values files[n] n
        partner = rf at hBase ⊢
      have hPast : (threadPast walk env st.threaded st.values rf files[n] n
          partner).preceding.itemFileBases =
            st.threaded.preceding.itemFileBases ++
              [st.threaded.preceding.count] := by
        unfold threadPast Threaded.noteShadow
        split
        · exact extendWith_itemFileBases
        · exact extendWith_itemFileBases
      unfold FoldState.push
      dsimp only
      rw [hPast, hBefore, List.map_append, ← hBase]
      rfl

------------------------------------------------------------
-- What An Export Leads To
------------------------------------------------------------

/- The file's own exports, before its signature publishes any. -/
def walkedExports
    (walk : Walk T E W)
    (env : AssemblyEnv E)
    (files : List (ProjectFile T))
    (i : Nat)
    (pf : ProjectFile T) :
    List ExportedItem :=
  let entering := (viewAt walk env files i).threaded
  (readSlot walk env pf entering.preceding entering.ext).exports

/- An export is the file's own, or one that the paired signature's slot
   stashed. -/
theorem resolve_export
    (hOwn : ∀ tree preceding recovery,
      ∀ it ∈ (walk.resolveFile tree preceding env recovery).exports,
        ∃ d, it.exportDef = .own d)
    (hExport : ((viewAt walk env files i).resolve walk env files pf
      i).exports[k]? = some it) :
    (k < (walkedExports walk env files i pf).length ∧
      ∃ d, it.exportDef = .own d) ∨
    ((walkedExports walk env files i pf).length ≤ k ∧
      ∃ sig slot ex, sig < i ∧
        partnerAt (signaturePartners files) i = some sig ∧
        (viewAt walk env files i).values[sig]? = some slot ∧
        slot.sigExports[k - (walkedExports walk env files i pf).length]? =
          some ex ∧
        it.exportDef = .sig sig ex.defId) := by
  have hRead : ∀ k it, (walkedExports walk env files i pf)[k]? = some it →
      k < (walkedExports walk env files i pf).length ∧
        ∃ d, it.exportDef = .own d := by
    intro k it hGet
    refine ⟨(List.getElem?_eq_some_iff.1 hGet).1, ?_⟩
    have hMem := List.mem_of_getElem? hGet
    unfold walkedExports readSlot at hMem
    dsimp only at hMem
    split at hMem
    · cases hMem
    · exact hOwn _ _ _ it hMem
  unfold View.resolve resolveSlot materialise at hExport
  split at hExport
  · next tree sig _ hPartner =>
      rcases Option.filter_eq_some_iff.1 hPartner with ⟨hPair, hBefore⟩
      split at hExport
      · next slot hSlot =>
          change (walkedExports walk env files i pf ++
            List.mapIdx _ slot.sigExports)[k]? = some it at hExport
          by_cases hLt : k < (walkedExports walk env files i pf).length
          · rw [List.getElem?_append_left hLt] at hExport
            exact Or.inl (hRead k it hExport)
          · rw [List.getElem?_append_right (Nat.le_of_not_lt hLt),
              List.getElem?_mapIdx] at hExport
            rcases Option.map_eq_some_iff.1 hExport with ⟨ex, hEx, rfl⟩
            exact Or.inr ⟨Nat.le_of_not_lt hLt, sig, slot, ex,
              of_decide_eq_true hBefore, hPair, hSlot, hEx, rfl⟩
      · exact Or.inl (hRead k it hExport)
  · exact Or.inl (hRead k it hExport)

/- A stashed export of a signature points into the signature's arena. -/
theorem stashed_def
    {ex : SigExport}
    (hSig : ∀ tree qnof, ∀ ex ∈ (walk.signatureSurface tree qnof).exports,
      ex.defId < (walk.signatureSurface tree qnof).defs.length)
    (hKind : pf.isImpl = false)
    (hEx : ex ∈ ((viewAt walk env files i).resolve walk env files pf
      i).sigExports) :
    ex.defId <
      ((viewAt walk env files i).resolve walk env files pf i).defs.length := by
  unfold View.resolve at hEx ⊢
  rw [resolveSlot_sig hKind] at hEx ⊢
  exact hSig _ _ ex hEx

theorem coldFold_slots
    (hLe : n ≤ files.length) :
    (coldFold walk env files n heap).resolved.map (·.val) =
        (viewAt walk env files n).values ∧
      (coldFold walk env files n heap).resolved.length = n := by
  have hValues : (coldFold walk env files n heap).resolved.map (·.val) =
      (viewAt walk env files n).values :=
    congrArg View.values (coldFold_view hLe)
  refine ⟨hValues, ?_⟩
  have hLength := congrArg List.length hValues
  rw [List.length_map, viewAt_values_length hLe] at hLength
  exact hLength

/- The slots of a fold, with the files that they were read from. -/
theorem coldFold_slot
    (hLe : n ≤ files.length)
    (hGet : (coldFold walk env files n heap).resolved[i]? = some arc)
    (hFile : files[i]? = some pf) :
    i < n ∧
      arc.val = (viewAt walk env files i).resolve walk env files pf i := by
  have hValues : (coldFold walk env files n heap).resolved.map (·.val) =
      (viewAt walk env files n).values :=
    (coldFold_slots hLe).1
  have hLength : (coldFold walk env files n heap).resolved.length = n :=
    (coldFold_slots hLe).2
  have hLt := (List.getElem?_eq_some_iff.1 hGet).1
  rw [hLength] at hLt
  refine ⟨hLt, ?_⟩
  have hSlot := congrArg (fun values => values[i]?) hValues
  rw [List.getElem?_map, hGet, viewAt_values_get hLe hLt hFile] at hSlot
  exact Option.some.inj hSlot

/- The slot that an earlier view holds is still there at the end. -/
theorem coldFold_earlier
    {slot : ResolvedFile W}
    (hLe : n ≤ files.length)
    (hLt : i < n)
    (hBefore : sig < i)
    (hFile : files[sig]? = some pf)
    (hSlot : (viewAt walk env files i).values[sig]? = some slot) :
    slot = (viewAt walk env files sig).resolve walk env files pf sig ∧
      ∃ arc, (coldFold walk env files n heap).resolved[sig]? = some arc ∧
        arc.val = slot := by
  have hMid : (viewAt walk env files i).values[sig]? =
      some ((viewAt walk env files sig).resolve walk env files pf sig) :=
    viewAt_values_get (Nat.le_trans (Nat.le_of_lt hLt) hLe) hBefore hFile
  rw [hSlot] at hMid
  have hHere := Option.some.inj hMid
  refine ⟨hHere, ?_⟩
  have hLength : (coldFold walk env files n heap).resolved.length = n :=
    (coldFold_slots hLe).2
  have hIn : sig < (coldFold walk env files n heap).resolved.length := by
    rw [hLength]
    exact Nat.lt_trans hBefore hLt
  have hGet := List.getElem?_eq_getElem hIn
  refine ⟨_, hGet, ?_⟩
  rw [(coldFold_slot hLe hGet hFile).2, hHere]

/- The binder of an export, by where the export came from. -/
theorem itemDef_export
    (hLe : n ≤ files.length)
    (hOwn : ∀ tree preceding recovery,
      ∀ it ∈ (walk.resolveFile tree preceding env recovery).exports,
        ∃ d, it.exportDef = .own d)
    (hSig : ∀ tree qnof, ∀ ex ∈ (walk.signatureSurface tree qnof).exports,
      ex.defId < (walk.signatureSurface tree qnof).defs.length)
    (hGet : (coldFold walk env files n heap).resolved[i]? = some arc)
    (hFile : files[i]? = some pf)
    (hExport : arc.val.exports[k]? = some it) :
    (k < (walkedExports walk env files i pf).length ∧
      ∃ d definition, it.exportDef = .own d ∧
        arc.val.defs[d]? = some definition ∧
        itemDef (coldFold walk env files n heap).resolved (.item it.id) =
          some (i, definition)) ∨
    ((walkedExports walk env files i pf).length ≤ k ∧
      ∃ sig slot ex definition, sig < i ∧
        partnerAt (signaturePartners files) i = some sig ∧
        PairsWith files sig i ∧
        (coldFold walk env files n heap).resolved[sig]? = some slot ∧
        slot.val.sigExports[k -
          (walkedExports walk env files i pf).length]? = some ex ∧
        slot.val.defs[ex.defId]? = some definition ∧
        itemDef (coldFold walk env files n heap).resolved (.item it.id) =
          some (sig, definition)) := by
  have hCounted : Counted (coldFold walk env files n heap) :=
    (coldFold_allocated hLe).2
  have hNumbered := hCounted.numbered
  have hId := arc.val.numbered k it hExport
  have hOf : arc.val.exportOf it.id = some it := by
    unfold ResolvedFile.exportOf
    rw [hId, if_pos (Nat.le_add_right _ _), Nat.add_sub_cancel_left]
    exact hExport
  have hLeads := itemDef_owner hNumbered hGet hOf
  rcases coldFold_slot hLe hGet hFile with ⟨hLt, hSlot⟩
  have hExport' := hExport
  rw [hSlot] at hExport'
  rcases resolve_export hOwn hExport' with
    ⟨hBelow, d, hDef⟩ | ⟨hAbove, sig, slot, ex, hBefore, hPartner, hStashed,
      hEx, hDef⟩
  · have hArena := arc.val.ownDefs it (List.mem_of_getElem? hExport) d hDef
    have hDefinition := List.getElem?_eq_getElem hArena
    refine Or.inl ⟨hBelow, d, _, hDef, hDefinition, ?_⟩
    rw [hLeads, hDef]
    unfold definitionAt
    dsimp only
    rw [hGet, Option.bind_some, hDefinition]
    rfl
  · have hPairs := signaturePartners_sound hPartner hBefore
    rcases hPairs with ⟨pfs, pfi, hFileSig, -, hKind, -, -⟩
    have hEarlier : slot = (viewAt walk env files sig).resolve walk env files
          pfs sig ∧
        ∃ arc, (coldFold walk env files n heap).resolved[sig]? = some arc ∧
          arc.val = slot :=
      coldFold_earlier hLe hLt hBefore hFileSig hStashed
    rcases hEarlier with ⟨hRead, slotArc, hGetSig, hVal⟩
    subst hVal
    have hArena : ex.defId < slotArc.val.defs.length := by
      have hMem := List.mem_of_getElem? hEx
      rw [hRead] at hMem ⊢
      exact stashed_def hSig hKind hMem
    have hDefinition := List.getElem?_eq_getElem hArena
    refine Or.inr ⟨hAbove, sig, slotArc, ex, _, hBefore, hPartner,
      signaturePartners_sound hPartner hBefore, hGetSig, hEx, hDefinition, ?_⟩
    rw [hLeads, hDef]
    unfold definitionAt
    dsimp only
    rw [hGetSig, Option.bind_some, hDefinition]
    rfl

/- The ids below the count are those that some file exports. -/
theorem exported_iff
    {id count : Nat}
    (hNumbered : NumberedProject project)
    (hCount : count = exportsBefore project project.length) :
    id < count ↔
      ∃ (i : Nat) (arc : Arc (ResolvedFile W)) (k : Nat)
        (it : ExportedItem), project[i]? = some arc ∧
        arc.val.exports[k]? = some it ∧ it.id = id := by
  constructor
  · intro hLt
    rw [hCount] at hLt
    -- the last file whose range starts at or below the id
    have hFind : ∀ m, m ≤ project.length → id < exportsBefore project m →
        ∃ i < m, exportsBefore project i ≤ id ∧
          id < exportsBefore project (i + 1) := by
      intro m
      induction m with
      | zero =>
          intro _ hNone
          cases hNone
      | succ m ih =>
          intro hLe hBelow
          by_cases hHere : id < exportsBefore project m
          · rcases ih (Nat.le_of_succ_le hLe) hHere with ⟨i, hi, hRange⟩
            exact ⟨i, Nat.lt_succ_of_lt hi, hRange⟩
          · exact ⟨m, Nat.lt_succ_self m, Nat.le_of_not_lt hHere, hBelow⟩
    rcases hFind project.length (Nat.le_refl _) hLt with
      ⟨i, hi, hLow, hHigh⟩
    have hGet := List.getElem?_eq_getElem hi
    rw [exportsBefore_succ hGet] at hHigh
    have hIn : id - exportsBefore project i <
        project[i].val.exports.length := by omega
    refine ⟨i, project[i], id - exportsBefore project i, _, hGet,
      List.getElem?_eq_getElem hIn, ?_⟩
    have hId := project[i].val.numbered _ _ (List.getElem?_eq_getElem hIn)
    rw [hId, hNumbered i _ hGet, Nat.add_sub_cancel' hLow]
  · rintro ⟨i, arc, k, it, hGet, hExport, rfl⟩
    have hLt := (List.getElem?_eq_some_iff.1 hExport).1
    have hId := arc.val.numbered k it hExport
    have hMono : exportsBefore project (i + 1) ≤
        exportsBefore project project.length :=
      exportsBefore_mono (List.getElem?_eq_some_iff.1 hGet).1
    rw [exportsBefore_succ hGet, ← hNumbered i arc hGet] at hMono
    rw [hCount, hId]
    omega

end Ranges

/-
  Where a file's own exports point into its arena, and a signature's
  stashed ones into the signature's, the ids of a fold are partitioned by
  the files in Compile order, and each leads to a binder: in the file
  that exported it, or in its paired signature where that published it.
-/
theorem item_ids_partition
    {T E W : Type}
    (walk : Walk T E W)
    (env : AssemblyEnv E)
    (files : List (ProjectFile T))
    (horizon heap : Nat)
    (hHorizon : horizon ≤ files.length)
    (hOwn : ∀ tree preceding recovery,
      ∀ it ∈ (walk.resolveFile tree preceding env recovery).exports,
        ∃ d, it.exportDef = .own d)
    (hSig : ∀ tree qnof, ∀ ex ∈ (walk.signatureSurface tree qnof).exports,
      ex.defId < (walk.signatureSurface tree qnof).defs.length) :
    let p := (coldFold walk env files horizon heap).threaded.preceding
    let project := (coldFold walk env files horizon heap).resolved
    (NumberedProject project ∧
      p.itemFileBases = project.map (·.val.itemBase) ∧
      p.itemFileBases.Pairwise (fun a b => a ≤ b) ∧
      p.nextBase = exportsBefore project project.length ∧
      ∀ (i j : Nat) (arc other : Arc (ResolvedFile W)), i < j →
        project[i]? = some arc → project[j]? = some other →
        arc.val.itemBase + arc.val.exports.length ≤ other.val.itemBase) ∧
    (∀ id, id < p.nextBase ↔
      ∃ (i : Nat) (arc : Arc (ResolvedFile W)) (k : Nat)
        (it : ExportedItem), project[i]? = some arc ∧
        arc.val.exports[k]? = some it ∧ it.id = id) ∧
    ∀ (i : Nat) (arc : Arc (ResolvedFile W)) (k : Nat) (it : ExportedItem)
      (pf : ProjectFile T), project[i]? = some arc →
      files[i]? = some pf → arc.val.exports[k]? = some it →
      it.id = arc.val.itemBase + k ∧
      p.fileOf it.id = i ∧
      (∀ (j : Nat) (other : Arc (ResolvedFile W)),
        project[j]? = some other → (other.val.ownsItem it.id = true ↔ j = i)) ∧
      ((k < (walkedExports walk env files i pf).length ∧
        ∃ d definition, it.exportDef = .own d ∧
          arc.val.defs[d]? = some definition ∧
          itemDef project (.item it.id) = some (i, definition)) ∨
      ((walkedExports walk env files i pf).length ≤ k ∧
        ∃ sig slot ex definition, sig < i ∧
          partnerAt (signaturePartners files) i = some sig ∧
          PairsWith files sig i ∧ project[sig]? = some slot ∧
          slot.val.sigExports[k -
            (walkedExports walk env files i pf).length]? = some ex ∧
          slot.val.defs[ex.defId]? = some definition ∧
          itemDef project (.item it.id) = some (sig, definition))) := by
  intro p project
  have hCounted : Counted (coldFold walk env files horizon heap) :=
    (coldFold_allocated hHorizon).2
  have hNumbered : NumberedProject project := hCounted.numbered
  have hCount : p.nextBase = exportsBefore project project.length :=
    hCounted.count
  have hBases : p.itemFileBases = project.map (·.val.itemBase) :=
    coldFold_bases hHorizon
  refine ⟨⟨hNumbered, hBases, ?_, hCount, ?_⟩, ?_, ?_⟩
  · rw [hBases, List.pairwise_map, List.pairwise_iff_getElem]
    intro i j hi hj hLt
    have hEnd := range_end hNumbered (List.getElem?_eq_getElem hi)
      (List.getElem?_eq_getElem hj) hLt
    exact Nat.le_of_add_right_le hEnd
  · intro i j arc other hLt hGet hGet'
    exact range_end hNumbered hGet hGet' hLt
  · intro id
    exact exported_iff hNumbered hCount
  · intro i arc k it pf hGet hFile hExport
    have hId := arc.val.numbered k it hExport
    have hLt := (List.getElem?_eq_some_iff.1 hExport).1
    have hOwns : arc.val.ownsItem it.id = true := by
      rw [ownsItem_iff, hId]
      exact ⟨Nat.le_add_right _ _, Nat.add_lt_add_left hLt _⟩
    refine ⟨hId, fileOf_owner hBases hNumbered hGet hOwns, ?_, ?_⟩
    · intro j other hGet'
      exact ownsItem_unique hNumbered hGet hOwns hGet'
    · exact itemDef_export hHorizon hOwn hSig hGet hFile hExport

/- A file with one export of its own. -/
def exportingFile
    (base : Nat) :
    ResolvedFile Bool :=
  { silentFile base false with
    defs := [⟨"own", .other⟩]
    exports := [⟨"own", none, base, .own 0, none, none, false⟩]
    numbered := by
      intro k it hGet
      have hLt := (List.getElem?_eq_some_iff.1 hGet).1
      have hZero : k = 0 := Nat.lt_one_iff.1 hLt
      subst hZero
      cases hGet
      rfl
    ownDefs := by
      intro it hMem d hOwn
      rw [List.mem_singleton.1 hMem] at hOwn
      cases hOwn
      exact Nat.succ_pos 0
    mirrored := by
      intro decl hMem
      cases hMem
    attributed := by
      intro range d hGet
      cases hGet }

/- Implementations with one export each, and signatures that stash one. -/
def pairedWalk :
    Walk SampleTree Unit Bool :=
  { sampleWalk with
    resolveFile := fun _ preceding _ _ => exportingFile preceding.nextBase
    signatureSurface := fun _ _ =>
      ⟨⟨[], ∅, [], [], [], ∅, ∅, ∅, [], [], ∅⟩, [⟨"signed", .other⟩],
        [⟨"signed", none, [], 0, none, none, none, false, 0⟩]⟩
    numbered := by
      intro _ _ _ _
      rfl
    unsigned := by
      intro _ _ _ _
      rfl }

/- `A.fsi`, an unrelated file, and `A.fs`. -/
def pairedFiles :
    List (ProjectFile SampleTree) :=
  [⟨.sig .reader, ⟨"A", "A"⟩, .reported []⟩,
    ⟨.impl .reader, ⟨"First", "First"⟩, .reported []⟩,
    ⟨.impl .reader, ⟨"A", "A"⟩, .reported []⟩]

/- The last id is the one that the signature published. -/
theorem item_ids_partition_paired :
    (coldFold pairedWalk sampleEnv pairedFiles 3
        0).threaded.preceding.fileOf 2 = 2 ∧
      itemDef (coldFold pairedWalk sampleEnv pairedFiles 3 0).resolved
        (.item 2) = some (0, ⟨"signed", .other⟩) := by
  have hOwn : ∀ tree preceding recovery,
      ∀ it ∈ (pairedWalk.resolveFile tree preceding sampleEnv
        recovery).exports, ∃ d, it.exportDef = .own d := by
    intro _ _ _ it hMem
    have hOnly : it = ⟨"own", none, _, .own 0, none, none, false⟩ :=
      List.mem_singleton.1 hMem
    rw [hOnly]
    exact ⟨0, rfl⟩
  have hSig : ∀ tree qnof, ∀ ex ∈ (pairedWalk.signatureSurface tree
      qnof).exports,
      ex.defId < (pairedWalk.signatureSurface tree qnof).defs.length := by
    intro _ _ ex hMem
    have hOnly : ex =
        ⟨"signed", none, [], 0, none, none, none, false, 0⟩ :=
      List.mem_singleton.1 hMem
    rw [hOnly]
    exact Nat.succ_pos 0
  rcases item_ids_partition pairedWalk sampleEnv pairedFiles 3 0
    (Nat.le_refl 3) hOwn hSig with ⟨-, -, hLeads⟩
  rcases hLeads 2 _ 1 _ _ rfl rfl rfl with
    ⟨-, hFile, -, ⟨hLt, -⟩ | ⟨-, sig, slot, ex, definition, -, hPartner, -,
      hSlot, hEx, hDef, hItem⟩⟩
  · exact absurd hLt (Nat.lt_irrefl 1)
  · cases hPartner
    cases hSlot
    cases hEx
    cases hDef
    exact ⟨hFile, hItem⟩

end Resolve

end Borzoi
