import Borzoi.NuGet.InPlay

/-
  The tree of the legacy restore engine.

  Every occurrence of a package in the tree stands at the lower bound of
  the edge that leads to it, and has the edges that none of its ancestors
  decides.  No version is selected here: the tree is what a restore walks
  before it resolves conflicts.
-/

namespace Borzoi

namespace NuGet

variable {E : Type}

/- A package of the tree, or the root, with its dependencies. -/
abbrev Level :=
  Option PackageId × List Edge

/- What a nearer edge says of a deeper one on its package. -/
def against
    (nearer deeper : VersionRange) :
    Verdict :=
  if nearer.isFloating || deeper.isFloating then
    .FloatCompared
  else if isAtLeast nearer deeper then
    .Eclipsed
  else
    .PotentiallyDowngraded

/- What the levels above a package say of one of its edges. -/
def judgeAbove
    (id : PackageId)
    (range : VersionRange) :
    List Level → Verdict
  | [] => .Acceptable
  | (name, edges) :: up =>
      if name = some id then
        .Cycle
      else
        match edges.find? fun edge => edge.1 = id with
        | some edge => against edge.2 range
        | none => judgeAbove id range up

/- The verdict on an edge of the lowest level. -/
def judge
    (id : PackageId)
    (range : VersionRange) :
    List Level → Verdict
  | [] => .Acceptable
  | (name, _) :: up =>
      if name = some id then .Cycle else judgeAbove id range up

/- The paths of the tree, from a package up to the root. -/
inductive Occurs
    (folder : Folder E)
    (direct : List DirectPackageRequirement) :
    List Level → Prop
  | root :
      Occurs folder direct [(none, directEdges direct)]
  | child
      {name : Option PackageId}
      {edges : List Edge}
      {up : List Level}
      {id : PackageId}
      {range : VersionRange}
      {bound : NuGetVersion}
      (hAbove : Occurs folder direct ((name, edges) :: up))
      (hMem : (id, range) ∈ edges)
      (hVerdict : judge id range ((name, edges) :: up) = .Acceptable)
      (hBound : range.exactBound = some bound) :
      Occurs folder direct
        ((some id, followedEdges folder ⟨id, bound⟩) ::
          (name, edges) :: up)

/- The edges of the tree that no ancestor decides. -/
def Survives
    (folder : Folder E)
    (direct : List DirectPackageRequirement)
    (edge : Edge) :
    Prop :=
  ∃ name edges up, Occurs folder direct ((name, edges) :: up) ∧
    edge ∈ edges ∧
    judge edge.1 edge.2 ((name, edges) :: up) = .Acceptable

section Order

variable {folder : Folder E} {direct direct' : List DirectPackageRequirement}

variable {edge : Edge} {edges edges' : List Edge} {id : PackageId}

theorem find?_of_nodup
    (hNodup : (edges.map Prod.fst).Nodup)
    (hMem : edge ∈ edges)
    (hId : edge.1 = id) :
    edges.find? (fun e => e.1 = id) = some edge := by
  induction edges with
  | nil =>
      cases hMem
  | cons first rest ih =>
      rw [List.map_cons, List.nodup_cons] at hNodup
      rcases List.mem_cons.1 hMem with rfl | hRest
      · exact List.find?_cons_of_pos (decide_eq_true hId)
      · have hNe : ¬ first.1 = id := by
          intro hSame
          apply hNodup.1
          rw [hSame, ← hId]
          exact List.mem_map.2 ⟨edge, hRest, rfl⟩
        rw [List.find?_cons_of_neg (by simpa using hNe)]
        exact ih hNodup.2 hRest

/- The edge that is found does not depend on the order. -/
theorem find?_perm
    (hPerm : edges.Perm edges')
    (hNodup : (edges.map Prod.fst).Nodup)
    (id : PackageId) :
    edges.find? (fun e => e.1 = id) =
      edges'.find? (fun e => e.1 = id) := by
  have hNodup' : (edges'.map Prod.fst).Nodup :=
    (hPerm.map Prod.fst).nodup_iff.1 hNodup
  cases hFind : edges.find? (fun e => e.1 = id) with
  | none =>
      symm
      rw [List.find?_eq_none] at hFind ⊢
      intro edge hMem
      exact hFind edge (hPerm.mem_iff.2 hMem)
  | some edge =>
      have hFound := List.find?_some hFind
      have hId : edge.1 = id := of_decide_eq_true hFound
      have hMem := hPerm.mem_iff.1 (List.mem_of_find?_eq_some hFind)
      exact (find?_of_nodup hNodup' hMem hId).symm

theorem judgeAbove_root
    (hFind : ∀ id : PackageId, edges.find? (fun e => e.1 = id) =
      edges'.find? (fun e => e.1 = id))
    (id : PackageId)
    (range : VersionRange)
    (up : List Level) :
    judgeAbove id range (up ++ [(none, edges)]) =
      judgeAbove id range (up ++ [(none, edges')]) := by
  induction up with
  | nil =>
      rw [List.nil_append, List.nil_append, judgeAbove, hFind id]
      rfl
  | cons level up ih =>
      rcases level with ⟨name, levelEdges⟩
      rw [List.cons_append, List.cons_append, judgeAbove, judgeAbove, ih]

theorem judge_root
    (hFind : ∀ id : PackageId, edges.find? (fun e => e.1 = id) =
      edges'.find? (fun e => e.1 = id))
    (id : PackageId)
    (range : VersionRange)
    (up : List Level) :
    judge id range (up ++ [(none, edges)]) =
      judge id range (up ++ [(none, edges')]) := by
  cases up with
  | nil =>
      rfl
  | cons level up =>
      rcases level with ⟨name, levelEdges⟩
      rw [List.cons_append, List.cons_append, judge, judge,
        judgeAbove_root hFind]

theorem directEdges_perm
    (hPerm : direct.Perm direct') :
    (directEdges direct).Perm (directEdges direct') :=
  hPerm.map _

theorem directEdges_ids :
    (directEdges direct).map Prod.fst =
      direct.map fun requirement => requirement.id := by
  unfold directEdges
  rw [List.map_map]
  rfl

/- A path of the tree is one below the references in another order. -/
theorem occurs_perm
    {levels : List Level}
    (hPerm : direct.Perm direct')
    (hDistinct : (direct.map fun requirement => requirement.id).Nodup)
    (hOccurs : Occurs folder direct levels) :
    ∃ up, levels = up ++ [(none, directEdges direct)] ∧
      Occurs folder direct' (up ++ [(none, directEdges direct')]) := by
  have hEdges := directEdges_perm hPerm
  have hNodup : ((directEdges direct).map Prod.fst).Nodup := by
    rw [directEdges_ids]
    exact hDistinct
  have hFind := find?_perm hEdges hNodup
  induction hOccurs with
  | root =>
      exact ⟨[], rfl, .root⟩
  | @child name edges up id range bound hAbove hMem hVerdict hBound ih =>
      rcases ih with ⟨up', hUp, hOccurs'⟩
      rw [hUp, judge_root hFind] at hVerdict
      refine ⟨(some id, followedEdges folder ⟨id, bound⟩) :: up', ?_, ?_⟩
      · rw [hUp]
        rfl
      · cases up' with
        | nil =>
            cases hUp
            exact .child hOccurs' (hEdges.mem_iff.1 hMem) hVerdict hBound
        | cons level up' =>
            cases hUp
            exact .child hOccurs' hMem hVerdict hBound

theorem survives_perm
    (hPerm : direct.Perm direct')
    (hDistinct : (direct.map fun requirement => requirement.id).Nodup)
    (hSurvives : Survives folder direct edge) :
    Survives folder direct' edge := by
  rcases hSurvives with ⟨name, edges, up, hOccurs, hMem, hVerdict⟩
  rcases occurs_perm hPerm hDistinct hOccurs with ⟨up', hUp, hOccurs'⟩
  have hEdges := directEdges_perm hPerm
  have hNodup : ((directEdges direct).map Prod.fst).Nodup := by
    rw [directEdges_ids]
    exact hDistinct
  rw [hUp, judge_root (find?_perm hEdges hNodup)] at hVerdict
  cases up' with
  | nil =>
      cases hUp
      exact ⟨_, _, _, hOccurs', hEdges.mem_iff.1 hMem, hVerdict⟩
  | cons level up' =>
      cases hUp
      exact ⟨_, _, _, hOccurs', hMem, hVerdict⟩

theorem inPlay_perm
    {version : NuGetVersion}
    (hPerm : direct.Perm direct')
    (hInPlay : InPlay folder direct id version) :
    InPlay folder direct' id version := by
  induction hInPlay with
  | direct hMem hBound =>
      exact .direct ((directEdges_perm hPerm).mem_iff.1 hMem) hBound
  | declared hParent hMem hBound ih =>
      exact .declared ih hMem hBound

end Order

end NuGet

end Borzoi
