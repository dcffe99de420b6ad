import Borzoi.NuGet.WalkSettled
import Borzoi.Text.Joined

/-
  The versions in play.

  A version is in play when the direct references reach it through the
  lower bounds of declared dependencies.  The resolver never looks at
  another one.
-/

namespace Borzoi

namespace NuGet

variable {E : Type}

/- The versions that the direct references can lead to. -/
inductive InPlay
    (folder : Folder E)
    (direct : List DirectPackageRequirement) :
    PackageId → NuGetVersion → Prop
  | direct
      {id : PackageId}
      {range : VersionRange}
      {bound : NuGetVersion}
      (hMem : (id, range) ∈ directEdges direct)
      (hBound : range.exactBound = some bound) :
      InPlay folder direct id bound
  | declared
      {parent id : PackageId}
      {version bound : NuGetVersion}
      {range : VersionRange}
      (hParent : InPlay folder direct parent version)
      (hMem : (id, range) ∈ followedEdges folder ⟨parent, version⟩)
      (hBound : range.exactBound = some bound) :
      InPlay folder direct id bound

/- Versions in play that compare equal are the same version. -/
def OneSpelling
    (folder : Folder E)
    (direct : List DirectPackageRequirement) :
    Prop :=
  ∀ id v u, InPlay folder direct id v → InPlay folder direct id u →
    v.eq u = true → v.eqStrict u = true

/- The dependencies of a package that reads and has no unmodelled
   shape. -/
def declares
    (folder : Folder E)
    (identity : PackageIdentity) :
    Option (List Edge) :=
  match folder.get identity with
  | none => none
  | some cached => (modelledDependencies cached.dependencies).toOption

/- Versions in play that compare equal are the same version, or declare
   the same dependencies. -/
def Interchangeable
    (folder : Folder E)
    (direct : List DirectPackageRequirement) :
    Prop :=
  ∀ id v u, InPlay folder direct id v → InPlay folder direct id u →
    v.eq u = true →
    v.eqStrict u = true ∨
      ∃ edges, declares folder ⟨id, v⟩ = some edges ∧
        declares folder ⟨id, u⟩ = some edges

theorem OneSpelling.interchangeable
    {folder : Folder E}
    {direct : List DirectPackageRequirement}
    (hOne : OneSpelling folder direct) :
    Interchangeable folder direct := by
  intro id v u hV hU hEq
  exact Or.inl (hOne id v u hV hU hEq)

theorem lower_of_eqIgnoreAsciiCase
    {a b : List Char}
    (hEq : eqIgnoreAsciiCase a b = true) :
    a.map Char.toLower = b.map Char.toLower := by
  have hBytes : (a.map Char.toLower).map Char.toNat =
      (b.map Char.toLower).map Char.toNat := by
    rw [List.map_map, List.map_map]
    exact beq_iff_eq.1 hEq
  apply List.map_injective_iff.2 _ hBytes
  intro c d hSame
  exact Char.toNat_inj.1 hSame

theorem lower_of_pairs
    {xs ys : List (List Char)}
    (hLength : xs.length = ys.length)
    (hPairs : (xs.zip ys).all
      (fun pair => eqIgnoreAsciiCase pair.1 pair.2) = true) :
    xs.map (List.map Char.toLower) = ys.map (List.map Char.toLower) := by
  induction xs generalizing ys with
  | nil =>
      rw [List.length_eq_zero_iff.1 hLength.symm]
  | cons x xs ih =>
      cases ys with
      | nil =>
          cases hLength
      | cons y ys =>
          rw [List.zip_cons_cons, List.all_cons, Bool.and_eq_true]
            at hPairs
          rw [List.map_cons, List.map_cons,
            lower_of_eqIgnoreAsciiCase hPairs.1,
            ih (Nat.succ.inj hLength) hPairs.2]

variable {u v : NuGetVersion} {id : PackageId}

/- The same version names the same folder. -/
theorem versionFolderName_of_eqStrict
    (hStrict : v.eqStrict u = true) :
    (⟨id, v⟩ : PackageIdentity).versionFolderName =
      (⟨id, u⟩ : PackageIdentity).versionFolderName := by
  unfold NuGetVersion.eqStrict at hStrict
  simp only [Bool.and_eq_true, beq_iff_eq] at hStrict
  rcases hStrict with
    ⟨⟨⟨⟨⟨hMajor, hMinor⟩, hPatch⟩, hRevision⟩, hLength⟩, hPairs⟩
  have hLabels := lower_of_pairs hLength hPairs
  have hEmpty : v.releaseLabels = [] ↔ u.releaseLabels = [] := by
    rw [← List.length_eq_zero_iff, ← List.length_eq_zero_iff, hLength]
  unfold PackageIdentity.versionFolderName NuGetVersion.toNormalizedString
  dsimp only
  rw [hMajor, hMinor, hPatch, hRevision]
  by_cases hNone : u.releaseLabels = []
  · rw [if_neg (not_not.2 (hEmpty.2 hNone)), if_neg (not_not.2 hNone)]
  · rw [if_pos (fun hNil => hNone (hEmpty.1 hNil)), if_pos hNone,
      List.map_append, List.map_append, List.map_cons, List.map_cons,
      Text.map_intercalate, Text.map_intercalate, hLabels]

theorem entry_of_eqStrict
    (folder : Folder E)
    (hStrict : v.eqStrict u = true) :
    folder.get ⟨id, v⟩ = folder.get ⟨id, u⟩ := by
  unfold Folder.get Folder.entry
  rw [versionFolderName_of_eqStrict hStrict]

/- A walk has only versions in play, and counts every edge that
   survives. -/
structure Playing
    (folder : Folder E)
    (direct : List DirectPackageRequirement)
    (w : Walking) :
    Prop where
  current : ∀ id version, w.current.get id = some version →
    InPlay folder direct id version
  edges : ∀ id ranges, w.edges.get id = some ranges → ∀ range ∈ ranges,
    ∀ bound, range.exactBound = some bound → InPlay folder direct id bound
  surviving : ∀ edges ∈ w.surviving, ∀ edge ∈ edges,
    ∃ ranges, w.edges.get edge.1 = some ranges ∧ edge.2 ∈ ranges

section Playing

variable {folder : Folder E} {direct : List DirectPackageRequirement}
variable {w w' : Walking} {node depIndex : Nat}

/- The lower bound of an edge is in play. -/
def Leads
    (folder : Folder E)
    (direct : List DirectPackageRequirement)
    (edge : Edge) :
    Prop :=
  ∀ bound, edge.2.exactBound = some bound →
    InPlay folder direct edge.1 bound

theorem nodeEdges_lead
    {current : Versions}
    {n : Node}
    {edge : Edge}
    (hCurrent : ∀ id version, current.get id = some version →
      InPlay folder direct id version)
    (hMem : edge ∈ nodeEdges folder direct current n) :
    Leads folder direct edge := by
  rcases edge with ⟨id, range⟩
  intro bound hBound
  unfold nodeEdges at hMem
  cases hId : n.id with
  | none =>
      rw [hId] at hMem
      exact .direct hMem hBound
  | some parent =>
      rw [hId] at hMem
      dsimp only at hMem
      cases hVersion : current.get parent with
      | none =>
          rw [hVersion] at hMem
          cases hMem
      | some version =>
          rw [hVersion] at hMem
          exact .declared (hCurrent parent version hVersion) hMem hBound

variable {range : VersionRange}

theorem surviveEdge_playing
    (node : Nat)
    {bound : NuGetVersion}
    (hPlaying : Playing folder direct w)
    (hBound : range.exactBound = some bound)
    (hLeads : Leads folder direct (id, range)) :
    Playing folder direct (surviveEdge node id range bound w) := by
  have hInPlay := hLeads bound hBound
  constructor
  · intro id' version hGet
    change (raise w.current id bound).get id' = some version at hGet
    unfold raise at hGet
    have hInserted : (w.current.insert id bound).get id' = some version →
        InPlay folder direct id' version := by
      intro hInsert
      by_cases hSame : id' = id
      · rw [hSame, SortedMap.get_insert_self] at hInsert
        cases hInsert
        rw [hSame]
        exact hInPlay
      · rw [SortedMap.get_insert_of_ne hSame] at hInsert
        exact hPlaying.current id' version hInsert
    split at hGet
    · exact hInserted hGet
    · split at hGet
      · exact hInserted hGet
      · exact hPlaying.current id' version hGet
  · intro id' ranges hGet r hMem b hB
    rcases surviveEdge_edges hGet hMem with
      ⟨ranges', hGet', hMem'⟩ | ⟨hId, hR⟩
    · exact hPlaying.edges id' ranges' hGet' r hMem' b hB
    · rw [hR, hBound] at hB
      cases hB
      rw [hId]
      exact hInPlay
  · intro edges hEdges edge hMem
    have hKeeps : ∀ ranges, w.edges.get edge.1 = some ranges →
        edge.2 ∈ ranges →
        ∃ ranges', (surviveEdge node id range bound w).edges.get edge.1 =
          some ranges' ∧ edge.2 ∈ ranges' := by
      intro ranges hGet hIn
      have hExtends : Extends w (surviveEdge node id range bound w) :=
        surviveEdge_extends
      rcases hExtends.edges edge.1 ranges hGet with ⟨more, hMore⟩
      exact ⟨_, hMore, List.mem_append_left _ hIn⟩
    rcases List.getElem?_of_mem hEdges with ⟨i, hAt⟩
    change (w.surviving.modify node (· ++ [(id, range)]))[i]? =
      some edges at hAt
    rw [List.getElem?_modify] at hAt
    cases hCase : w.surviving[i]? with
    | none =>
        rw [hCase] at hAt
        cases hAt
    | some old =>
        rw [hCase] at hAt
        have hOld : ∀ e ∈ old, ∃ ranges,
            w.edges.get e.1 = some ranges ∧ e.2 ∈ ranges :=
          hPlaying.surviving old (List.mem_of_getElem? hCase)
        have hEq : (if node = i then old ++ [(id, range)] else old) =
            edges := Option.some.inj hAt
        have hSplit : edge ∈ old ∨ edge = (id, range) := by
          rw [← hEq] at hMem
          split at hMem
          · rcases List.mem_append.1 hMem with hIn | hNew
            · exact Or.inl hIn
            · exact Or.inr (List.mem_singleton.1 hNew)
          · exact Or.inl hMem
        rcases hSplit with hIn | rfl
        · rcases hOld edge hIn with ⟨ranges, hGet, hRange⟩
          exact hKeeps ranges hGet hRange
        · exact ⟨_, SortedMap.get_insert_self,
            List.mem_append_right _ (List.mem_singleton.2 rfl)⟩

theorem EdgeStep.playing
    (hPlaying : Playing folder direct w)
    (hLeads : Leads folder direct (id, range))
    (hStep : EdgeStep folder direct node depIndex id range w w') :
    Playing folder direct w' := by
  cases hStep with
  | eclipsed hVerdict =>
      exact hPlaying
  | floats hVerdict =>
      exact ⟨hPlaying.current, hPlaying.edges, hPlaying.surviving⟩
  | cycle hVerdict =>
      exact ⟨hPlaying.current, hPlaying.edges, hPlaying.surviving⟩
  | downgraded hVerdict =>
      exact ⟨hPlaying.current, hPlaying.edges, hPlaying.surviving⟩
  | lost hVerdict hBound hLost =>
      have hNext := surviveEdge_playing node hPlaying hBound hLeads
      exact ⟨hNext.current, hNext.edges, hNext.surviving⟩
  | expanded hVerdict hBound hWon =>
      have hNext := surviveEdge_playing node hPlaying hBound hLeads
      refine ⟨hNext.current, hNext.edges, ?_⟩
      intro edges hEdges
      rcases List.mem_append.1 hEdges with hOld | hNew
      · exact hNext.surviving edges hOld
      · rw [List.mem_singleton.1 hNew]
        exact List.forall_mem_nil _

theorem walkEdges_playing
    {edges : List Edge}
    (hPlaying : Playing folder direct w)
    (hLeads : ∀ edge ∈ edges, Leads folder direct edge)
    (hOk : walkEdges folder direct node edges depIndex w = .ok w') :
    Playing folder direct w' := by
  induction edges generalizing depIndex w with
  | nil =>
      cases hOk
      exact hPlaying
  | cons edge edges ih =>
      rcases edge with ⟨id, range⟩
      unfold walkEdges at hOk
      split at hOk
      · cases hOk
      · next next hHead =>
          have hNext := (walkEdge_step hHead).playing hPlaying
            (hLeads (id, range) List.mem_cons_self)
          exact ih hNext
            (fun edge hMem => hLeads edge (List.mem_cons_of_mem _ hMem))
            hOk

theorem walkLoop_playing
    {fuel : Nat}
    (hPlaying : Playing folder direct w)
    (hOk : walkLoop folder direct fuel w = .ok w') :
    Playing folder direct w' := by
  induction fuel generalizing w with
  | zero =>
      cases hOk
  | succ fuel ih =>
      unfold walkLoop at hOk
      split at hOk
      · cases hOk
        exact hPlaying
      · next stack hStack =>
        split at hOk
        · cases hOk
        · next hNode =>
            unfold walkNode at hNode
            split at hNode
            · cases hNode
            · next edges shapes hDependencies =>
                rcases nodeDependencies_cases hDependencies with
                  ⟨n, -, rfl, -⟩
                apply ih _ hOk
                apply walkEdges_playing _ _ hNode
                · exact ⟨hPlaying.current, hPlaying.edges,
                    hPlaying.surviving⟩
                · intro edge hMem
                  exact nodeEdges_lead hPlaying.current hMem

theorem startWalk_playing
    {before : Versions}
    (hBefore : ∀ id version, before.get id = some version →
      InPlay folder direct id version) :
    Playing folder direct (startWalk before) := by
  refine ⟨hBefore, ?_, ?_⟩
  · intro id ranges hGet
    cases hGet
  · intro edges hMem
    rw [List.mem_singleton.1 hMem]
    exact List.forall_mem_nil _

/- The versions that a walk selects are in play. -/
theorem Ended.playing
    {before selected : Versions}
    (hBefore : ∀ id version, before.get id = some version →
      InPlay folder direct id version)
    (hEnded : Ended folder direct before w selected) :
    Playing folder direct w ∧
      ∀ id version, selected.get id = some version →
        InPlay folder direct id version := by
  have hPlaying := walkLoop_playing (startWalk_playing hBefore) hEnded.run
  refine ⟨hPlaying, ?_⟩
  intro id version hVersion
  have hSome := hEnded.selects.only id (by rw [hVersion]; rfl)
  rcases Option.isSome_iff_exists.1 hSome with ⟨ranges, hRanges⟩
  rcases hEnded.selects.greatest id ranges hRanges with
    ⟨version', hVersion', hGreatest⟩
  rw [hVersion] at hVersion'
  cases hVersion'
  rcases hGreatest.attained with ⟨range, hMem, hBound⟩
  exact hPlaying.edges id ranges hRanges range hMem version hBound

end Playing

end NuGet

end Borzoi
