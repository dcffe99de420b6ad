import Borzoi.NuGet.LegacyTree
import Borzoi.NuGet.ResolverClosed

/-
  The order of the direct references does not matter.

  The edges of a settled walk that is finished are the surviving edges of
  the tree of the legacy engine: its nodes are the paths of the tree that
  win, and a path that loses has no surviving edge of its own.  That tree
  does not depend on the order of the references.

  Main declarations:
    * `Lineage`
    * `classify_judge`
    * `Faithful.survives_iff`
    * `resolve_offline_order_independent`
-/

namespace Borzoi

namespace NuGet

open Traversal

variable {E : Type}

/- The levels from a node up to the root. -/
inductive Lineage
    (nodes : List Node)
    (edgesOf : Node → List Edge) :
    Nat → List Level → Prop
  | root
      {n : Node}
      (hNode : nodes[0]? = some n) :
      Lineage nodes edgesOf 0 [(n.id, edgesOf n)]
  | child
      {i p : Nat}
      {n : Node}
      {up : List Level}
      (hNode : nodes[i]? = some n)
      (hParent : n.parent = some p)
      (hAbove : Lineage nodes edgesOf p up) :
      Lineage nodes edgesOf i ((n.id, edgesOf n) :: up)

variable {edges : List Edge} {levels up : List Level} {i : Nat} {n : Node}
variable {id : PackageId} {range : VersionRange}

section Lineages

variable {nodes nodes' more : List Node} {edgesOf edgesOf' : Node → List Edge}

theorem Lineage.head
    (hLineage : Lineage nodes edgesOf i levels) :
    ∃ n up, nodes[i]? = some n ∧ levels = (n.id, edgesOf n) :: up := by
  cases hLineage with
  | root hNode =>
      exact ⟨_, _, hNode, rfl⟩
  | child hNode hParent hAbove =>
      exact ⟨_, _, hNode, rfl⟩

theorem Tree.lineage
    (edgesOf : Node → List Edge)
    (hTree : Tree nodes)
    (hLt : i < nodes.length) :
    ∃ levels, Lineage nodes edgesOf i levels := by
  induction i using Nat.strongRecOn with
  | ind i ih =>
      have hNode := List.getElem?_eq_getElem hLt
      by_cases hZero : i = 0
      · rw [hZero]
        exact ⟨_, .root hTree.root⟩
      · rcases hTree.inner i _ hNode hZero with ⟨id, p, -, hParent, hBefore⟩
        rcases ih p hBefore (by omega) with ⟨up, hAbove⟩
        exact ⟨_, .child hNode hParent hAbove⟩

/- A lineage only depends on the edges of the nodes there are. -/
theorem Lineage.congr
    (hMore : nodes' = nodes ++ more)
    (hEdges : ∀ (j : Nat) (n : Node), nodes[j]? = some n →
      edgesOf n = edgesOf' n)
    (hLineage : Lineage nodes edgesOf i levels) :
    Lineage nodes' edgesOf' i levels := by
  induction hLineage with
  | root hNode =>
      rw [hEdges 0 _ hNode]
      exact .root (getElem?_of_isPrefix hMore hNode)
  | child hNode hParent hAbove ih =>
      rw [hEdges _ _ hNode]
      exact .child (getElem?_of_isPrefix hMore hNode) hParent ih

end Lineages

section Verdicts

variable {folder : Folder E} {direct : List DirectPackageRequirement}
variable {current : Versions} {nodes : List Node}

/- Leaving out an edge on another package does not change what the
   siblings say. -/
theorem siblingVerdict_eq
    {taken index : Nat}
    (hTaken : ∀ (k : Nat) (edge : Edge), edges[k]? = some edge →
      index + k = taken → edge.1 ≠ id) :
    siblingVerdict id range taken edges index =
      (edges.find? fun edge => edge.1 = id).map
        fun edge => against edge.2 range := by
  induction edges generalizing index with
  | nil =>
      rfl
  | cons edge edges ih =>
      rcases edge with ⟨siblingId, siblingRange⟩
      have hRest : siblingVerdict id range taken edges (index + 1) =
          (edges.find? fun edge => edge.1 = id).map
            fun edge => against edge.2 range := by
        apply ih
        intro k edge hAt hIs
        exact hTaken (k + 1) edge hAt (by omega)
      unfold siblingVerdict
      by_cases hSame : siblingId = id
      · have hNot : index ≠ taken := by
          intro hIs
          exact hTaken 0 (siblingId, siblingRange) rfl hIs hSame
        have hFind : ((siblingId, siblingRange) :: edges).find?
            (fun edge => edge.1 = id) = some (siblingId, siblingRange) :=
          List.find?_cons_of_pos (decide_eq_true hSame)
        rw [if_neg hNot, if_neg (not_not.2 hSame), hFind, Option.map_some]
        unfold against
        split
        · rfl
        · split
          · rfl
          · rfl
      · rw [List.find?_cons_of_neg (by simpa using hSame), hRest]
        split
        · rfl
        · rfl

/- Every node was reached by the edge it says it took. -/
def Took
    (nodes : List Node)
    (edgesOf : Node → List Edge) :
    Prop :=
  ∀ (i p : Nat) (n m : Node), nodes[i]? = some n → n.parent = some p →
    nodes[p]? = some m → ∃ id range, n.id = some id ∧
      (edgesOf m)[n.depIndex]? = some (id, range)

theorem siblings_judge
    (range : VersionRange)
    {edgesOf : Node → List Edge}
    {i p : Nat}
    {n m : Node}
    (hTook : Took nodes edgesOf)
    (hNode : nodes[i]? = some n)
    (hParent : n.parent = some p)
    (hAbove : nodes[p]? = some m)
    (hOther : n.id ≠ some id) :
    siblingVerdict id range n.depIndex (edgesOf m) 0 =
      ((edgesOf m).find? fun edge => edge.1 = id).map
        fun edge => against edge.2 range := by
  rcases hTook i p n m hNode hParent hAbove with
    ⟨taken, takenRange, hId, hTaken⟩
  apply siblingVerdict_eq
  intro k edge hAt hIs hSame
  rw [Nat.zero_add] at hIs
  rw [hIs, hTaken] at hAt
  cases hAt
  rw [hId, ← hSame] at hOther
  exact hOther rfl

theorem classifyAbove_judge
    {fuel i p : Nat}
    (hTree : Tree nodes)
    (hTook : Took nodes (ancestorDependencies folder direct current))
    (hNode : nodes[i]? = some n)
    (hParent : n.parent = some p)
    (hOther : n.id ≠ some id)
    (hLineage : Lineage nodes (ancestorDependencies folder direct current)
      p up)
    (hFuel : p + 2 ≤ fuel) :
    classifyAbove folder direct nodes id range current fuel n (some p) =
      .ok (judgeAbove id range up) := by
  induction hLineage generalizing fuel i n with
  | @root m hRoot =>
      obtain ⟨fuel, rfl⟩ : ∃ k, fuel = k + 1 := ⟨fuel - 1, by omega⟩
      have hIs := hRoot
      rw [hTree.root] at hIs
      cases hIs
      have hSiblings := siblings_judge range hTook hNode hParent hRoot
        hOther
      unfold classifyAbove judgeAbove
      rw [hRoot]
      dsimp only
      rw [if_neg (Option.some_ne_none id).symm,
        if_neg (Option.some_ne_none id).symm, hSiblings]
      cases hFind : (ancestorDependencies folder direct current
          ⟨none, none, 0⟩).find? fun edge => edge.1 = id with
      | some edge =>
          rfl
      | none =>
          dsimp only [Option.map_none]
          cases fuel with
          | zero =>
              omega
          | succ fuel =>
              rfl
  | @child p q m up hMid hUp hAbove ih =>
      obtain ⟨fuel, rfl⟩ : ∃ k, fuel = k + 1 := ⟨fuel - 1, by omega⟩
      have hSiblings := siblings_judge range hTook hNode hParent hMid
        hOther
      unfold classifyAbove judgeAbove
      rw [hMid]
      dsimp only
      by_cases hCycle : m.id = some id
      · rw [if_pos hCycle, if_pos hCycle]
      · rw [if_neg hCycle, if_neg hCycle, hSiblings]
        cases hFind : (ancestorDependencies folder direct current
            m).find? fun edge => edge.1 = id with
        | some edge =>
            rfl
        | none =>
            have hBefore := hTree.parent_lt hMid hUp
            dsimp only [Option.map_none]
            rw [hUp]
            exact ih hMid hUp hCycle (by omega)

/- The verdict of the code is that of the levels above. -/
theorem classify_judge
    (hTree : Tree nodes)
    (hTook : Took nodes (ancestorDependencies folder direct current))
    (hLineage : Lineage nodes (ancestorDependencies folder direct current)
      i levels) :
    classify folder direct nodes i id range current =
      .ok (judge id range levels) := by
  cases hLineage with
  | root hNode =>
      rw [hTree.root] at hNode
      cases hNode
      unfold classify
      rw [hTree.root]
      rfl
  | @child _ p n up hNode hParent hAbove =>
      unfold classify judge
      rw [hNode]
      dsimp only
      by_cases hSelf : n.id = some id
      · rw [if_pos hSelf, if_pos hSelf]
      · rw [if_neg hSelf, if_neg hSelf, hParent]
        have hBefore := hTree.parent_lt hNode hParent
        rcases List.getElem?_eq_some_iff.1 hNode with ⟨hLt, -⟩
        exact classifyAbove_judge hTree hTook hNode hParent hSelf hAbove
          (by omega)

end Verdicts

------------------------------------------------------------
-- Surviving Edges
------------------------------------------------------------

theorem followedEdges_of_eqStrict
    {v u : NuGetVersion}
    (folder : Folder E)
    (hStrict : v.eqStrict u = true) :
    followedEdges folder ⟨id, v⟩ = followedEdges folder ⟨id, u⟩ := by
  unfold followedEdges
  rw [entry_of_eqStrict folder hStrict]

theorem modelledDependencies_mem
    {dependencies : List PackageDependency}
    {edge : Edge}
    (hOk : modelledDependencies dependencies = .ok edges)
    (hMem : edge ∈ edges) :
    ∃ dependency ∈ dependencies, dependency.id = edge.1 ∧
      dependency.versionRange = some edge.2 := by
  induction dependencies generalizing edges with
  | nil =>
      cases hOk
      cases hMem
  | cons dependency rest ih =>
      unfold modelledDependencies at hOk
      split at hOk
      · cases hOk
      · split at hOk
        · cases hOk
        · next range hRange =>
            split at hOk
            · cases hOk
            · next edges' hRest =>
                cases hOk
                rcases List.mem_cons.1 hMem with rfl | hLater
                · exact ⟨dependency, List.mem_cons_self, rfl, hRange⟩
                · rcases ih hRest hLater with ⟨found, hFound, hIs⟩
                  exact ⟨found, List.mem_cons_of_mem _ hFound, hIs⟩

/- No edge of the lowest level survives. -/
def Barren
    (levels : List Level) :
    Prop :=
  match levels with
  | [] => True
  | (_, edges) :: _ =>
      ∀ edge ∈ edges, judge edge.1 edge.2 levels ≠ .Acceptable

section Survivors

variable {folder : Folder E} {direct : List DirectPackageRequirement}
variable {before selected : Versions} {w : Walking}
variable {packages : List ResolvedPackage}

section

variable (hFaithful : Faithful folder direct before w selected packages)

include hFaithful

theorem Faithful.selectedDependencies_eq
    (hNode : w.nodes[i]? = some n) :
    ancestorDependencies folder direct selected n =
      nodeEdges folder direct before n := by
  unfold ancestorDependencies nodeEdges
  cases hId : n.id with
  | none =>
      rfl
  | some id =>
      dsimp only
      rcases selected_of_node hFaithful.settled.ended hNode hId with
        ⟨ranges, version, -, hVersion, -⟩
      rcases hFaithful.settled.same id version hVersion with
        ⟨version', hVersion', -⟩
      rw [hVersion, hVersion']
      exact (hFaithful.edges_eq hNode hId hVersion hVersion').2.symm

theorem Faithful.took :
    Took w.nodes (nodeEdges folder direct before) := by
  intro i p n m hNode hParent hAbove
  have hZero : i ≠ 0 := by
    rintro rfl
    rw [hFaithful.settled.ended.sound.tree.root] at hNode
    cases hNode
    cases hParent
  rcases hFaithful.settled.traced.node i n hNode hZero with
    ⟨id, q, k, range, bound, rfl, hAccepts, -⟩
  cases hParent
  rcases hAccepts.found with ⟨m', hAbove', hEdge⟩
  rw [hAbove] at hAbove'
  cases hAbove'
  exact ⟨id, range, rfl, hEdge⟩

/- The verdicts of the walk are those of the tree. -/
theorem Faithful.classify_eq
    (hLineage : Lineage w.nodes (nodeEdges folder direct before) i
      levels) :
    classify folder direct w.nodes i id range before =
      .ok (judge id range levels) := by
  have hEq : ∀ (j : Nat) (n : Node), w.nodes[j]? = some n →
      nodeEdges folder direct before n =
        ancestorDependencies folder direct before n := fun j n hNode =>
    (hFaithful.ancestorDependencies_eq hNode).symm
  apply classify_judge hFaithful.settled.ended.sound.tree
  · intro j p n m hNode hParent hAbove
    rw [← hEq p m hAbove]
    exact hFaithful.took j p n m hNode hParent hAbove
  · exact hLineage.congr (List.append_nil _).symm hEq

/- A bound that wins has the dependencies of the version it wins with. -/
theorem Faithful.won_edges
    {ranges : List VersionRange}
    {bound : NuGetVersion}
    (hOne : OneSpelling folder direct)
    (hRanges : w.edges.get id = some ranges)
    (hMem : range ∈ ranges)
    (hBound : range.exactBound = some bound)
    (hWon : isWinner before id bound = true)
    {p k : Nat} :
    nodeEdges folder direct before ⟨some id, some p, k⟩ =
      followedEdges folder ⟨id, bound⟩ := by
  unfold isWinner at hWon
  unfold nodeEdges
  dsimp only
  cases hVersion : before.get id with
  | none =>
      rw [hVersion] at hWon
      cases hWon
  | some version =>
      rw [hVersion] at hWon
      dsimp only
      apply followedEdges_of_eqStrict
      exact hOne id version bound (hFaithful.started id version hVersion)
        (hFaithful.playing.edges id ranges hRanges range hMem bound hBound)
        hWon

/- The nodes of the walk are paths of the tree. -/
theorem Faithful.occurs
    (hOne : OneSpelling folder direct)
    (hLineage : Lineage w.nodes (nodeEdges folder direct before) i
      levels) :
    Occurs folder direct levels := by
  have hTraced := hFaithful.settled.traced
  have hTree := hFaithful.settled.ended.sound.tree
  induction hLineage with
  | root hNode =>
      rw [hTree.root] at hNode
      cases hNode
      exact .root
  | @child i p n up hNode hParent hAbove ih =>
      have hZero : i ≠ 0 := by
        rintro rfl
        rw [hTree.root] at hNode
        cases hNode
        cases hParent
      rcases hTraced.node i n hNode hZero with
        ⟨id, q, k, range, bound, rfl, hAccepts, hWon⟩
      cases hParent
      rcases hTraced.accepted hAccepts with
        ⟨⟨ranges, hRanges, hRange⟩, -⟩
      have hJudged : classify folder direct w.nodes p id range before =
          .ok (judge id range up) := hFaithful.classify_eq hAbove
      rw [hAccepts.verdict] at hJudged
      have hVerdict := (Except.ok.inj hJudged).symm
      rw [hFaithful.won_edges hOne hRanges hRange hAccepts.exact hWon]
      rcases hAbove.head with ⟨m, up', hMid, rfl⟩
      rcases hAccepts.found with ⟨m', hMid', hEdge⟩
      rw [hMid] at hMid'
      cases hMid'
      exact .child ih (List.mem_of_getElem? hEdge) hVerdict hAccepts.exact

end

variable {nodes : List Node} {loser : Loser}

theorem checkLoserDependency_ok
    {dependency : PackageDependency}
    (hRange : dependency.versionRange = some range)
    (hOk : checkLoserDependency folder direct (endWalk w selected) nodes
      loser dependency = .ok ()) :
    classify folder direct nodes (nodes.length - 1) dependency.id range
      selected ≠ .ok .Acceptable := by
  intro hVerdict
  have hVerdict' : classify folder direct nodes (nodes.length - 1)
      dependency.id range (endWalk w selected).selected =
      .ok .Acceptable := hVerdict
  unfold checkLoserDependency at hOk
  dsimp only at hOk
  rw [hRange] at hOk
  dsimp only at hOk
  rw [hVerdict'] at hOk
  split at hOk
  · cases hOk
  · cases hOk

/- The node that a loser would be. -/
def loserNode
    (loser : Loser) :
    Node :=
  ⟨some loser.identity.id, some loser.parent, loser.depIndex⟩

theorem loserNode_last
    (loser : Loser) :
    (nodes ++ [loserNode loser])[nodes.length]? =
      some (loserNode loser) := by
  rw [List.getElem?_append_right (Nat.le_refl _), Nat.sub_self]
  rfl

section

variable (hFaithful : Faithful folder direct before w selected packages)

include hFaithful

theorem Faithful.took_loser
    (hLoser : loser ∈ w.losers) :
    Took (w.nodes ++ [loserNode loser])
      (ancestorDependencies folder direct selected) := by
  have hTree : Tree (w.nodes ++ [loserNode loser]) :=
    hFaithful.settled.ended.sound.tree.push
      (hFaithful.settled.ended.sound.losers loser hLoser)
  intro j p n m hNode hUp hAbove
  have hBefore := hTree.parent_lt hNode hUp
  rcases List.getElem?_eq_some_iff.1 hNode with ⟨hLt, -⟩
  rw [List.length_append, List.length_singleton] at hLt
  rw [List.getElem?_append_left (by omega)] at hAbove
  rw [hFaithful.selectedDependencies_eq hAbove]
  rcases Nat.lt_or_ge j w.nodes.length with hOld | hNew
  · rw [List.getElem?_append_left hOld] at hNode
    exact hFaithful.took j p n m hNode hUp hAbove
  · have hIs : j = w.nodes.length := by omega
    rw [hIs, loserNode_last loser] at hNode
    cases hNode
    cases hUp
    rcases hFaithful.settled.traced.loser loser hLoser with
      ⟨range, hAccepts, -⟩
    rcases hAccepts.found with ⟨m', hAbove', hEdge⟩
    rw [hAbove] at hAbove'
    cases hAbove'
    exact ⟨_, _, rfl, hEdge⟩

/- What a loser depends on is decided above it. -/
theorem Faithful.loser_barren
    (hLoser : loser ∈ w.losers)
    (hLineage : Lineage w.nodes (nodeEdges folder direct before)
      loser.parent up) :
    Barren ((some loser.identity.id,
      followedEdges folder loser.identity) :: up) := by
  have hSound := hFaithful.settled.ended.sound
  have hTree : Tree (w.nodes ++ [loserNode loser]) :=
    hSound.tree.push (hSound.losers loser hLoser)
  have hChecked := hFaithful.finished.losers loser hLoser
  have hAbove : Lineage (w.nodes ++ [loserNode loser])
      (ancestorDependencies folder direct selected) loser.parent up := by
    apply hLineage.congr rfl
    intro j n hNode
    exact (hFaithful.selectedDependencies_eq hNode).symm
  have hBelow := Lineage.child (loserNode_last loser) rfl hAbove
  rintro ⟨id, range⟩ hMem hJudged
  unfold followedEdges at hMem
  unfold checkLoser at hChecked
  cases hGet : folder.get loser.identity with
  | none =>
      rw [hGet] at hMem
      cases hMem
  | some cached =>
      rw [hGet] at hMem hChecked
      dsimp only at hMem hChecked
      cases hModelled : modelledDependencies cached.dependencies with
      | error shape =>
          rw [hModelled] at hMem
          cases hMem
      | ok edges =>
          rw [hModelled] at hMem
          rcases modelledDependencies_mem hModelled hMem with
            ⟨dependency, hDependency, hId, hRange⟩
          apply checkLoserDependency_ok hRange
            (forEach_ok hChecked dependency hDependency)
          have hLast : ((endWalk w selected).nodes ++
              [loserNode loser]).length - 1 = w.nodes.length := by
            rw [List.length_append, List.length_singleton]
            rfl
          change classify folder direct (w.nodes ++ [loserNode loser])
            (((endWalk w selected).nodes ++ [loserNode loser]).length - 1)
            dependency.id range selected = .ok .Acceptable
          rw [hLast, hId, ← hJudged]
          exact (classify_judge hTree (hFaithful.took_loser hLoser)
            hBelow).trans rfl

/- A path of the tree is a node of the walk, or nothing below it
   survives. -/
theorem Faithful.occurs_cases
    (hOne : OneSpelling folder direct)
    (hOccurs : Occurs folder direct levels) :
    (∃ i, Lineage w.nodes (nodeEdges folder direct before) i levels) ∨
      Barren levels := by
  have hTraced := hFaithful.settled.traced
  have hTree := hFaithful.settled.ended.sound.tree
  induction hOccurs with
  | root =>
      exact Or.inl ⟨0, .root hTree.root⟩
  | @child name edges up id range bound hAbove hMem hVerdict hBound ih =>
      rcases ih with ⟨p, hLineage⟩ | hBarren
      · rcases hLineage.head with ⟨m, up', hMid, hLevels⟩
        cases hLevels
        rcases List.getElem?_of_mem hMem with ⟨k, hEdge⟩
        rcases hTraced.noted p k m (id, range) hMid hEdge trivial with
          ⟨verdict, hClassified, hNoted⟩
        rw [hFaithful.classify_eq hLineage, hVerdict] at hClassified
        cases hClassified
        rcases hNoted with
          ⟨⟨ranges, hRanges, hRange⟩, bound', hBound', hCase⟩
        rw [hBound] at hBound'
        cases hBound'
        rcases hCase with ⟨hWon, hNode⟩ | ⟨-, hLoser⟩
        · rcases List.getElem?_of_mem hNode with ⟨i, hAt⟩
          have hChild := Lineage.child hAt rfl hLineage
          rw [hFaithful.won_edges hOne hRanges hRange hBound hWon]
            at hChild
          exact Or.inl ⟨i, hChild⟩
        · exact Or.inr (hFaithful.loser_barren hLoser hLineage)
      · exact absurd hVerdict (hBarren (id, range) hMem)

/- The edges of the walk are the surviving edges of the tree. -/
theorem Faithful.survives_iff
    (hOne : OneSpelling folder direct)
    (edge : Edge) :
    Survives folder direct edge ↔
      ∃ ranges, w.edges.get edge.1 = some ranges ∧ edge.2 ∈ ranges := by
  have hTraced := hFaithful.settled.traced
  constructor
  · rintro ⟨name, edges, up, hOccurs, hMem, hVerdict⟩
    rcases hFaithful.occurs_cases hOne hOccurs with
      ⟨i, hLineage⟩ | hBarren
    · rcases hLineage.head with ⟨n, up', hNode, hLevels⟩
      cases hLevels
      rcases List.getElem?_of_mem hMem with ⟨k, hEdge⟩
      rcases hTraced.noted i k n edge hNode hEdge trivial with
        ⟨verdict, hClassified, hNoted⟩
      rw [hFaithful.classify_eq hLineage, hVerdict] at hClassified
      cases hClassified
      exact hNoted.1
    · exact absurd hVerdict (hBarren edge hMem)
  · rintro ⟨ranges, hRanges, hRange⟩
    rcases hTraced.edge edge.1 ranges hRanges edge.2 hRange with
      ⟨i, k, bound, hAccepts⟩
    rcases hAccepts.found with ⟨n, hNode, hEdge⟩
    rcases List.getElem?_eq_some_iff.1 hNode with ⟨hLt, -⟩
    rcases hFaithful.settled.ended.sound.tree.lineage
      (nodeEdges folder direct before) hLt with ⟨levels, hLineage⟩
    have hJudged := hAccepts.verdict
    rw [hFaithful.classify_eq hLineage] at hJudged
    have hOccurs := hFaithful.occurs hOne hLineage
    rcases hLineage.head with ⟨n', up, hNode', rfl⟩
    rw [hNode] at hNode'
    cases hNode'
    exact ⟨_, _, _, hOccurs, List.mem_of_getElem? hEdge,
      Except.ok.inj hJudged⟩

end

end Survivors

section Order

variable {folder : Folder E} {direct direct' : List DirectPackageRequirement}
variable {before selected before' selected' : Versions} {w w' : Walking}
variable {packages packages' : List ResolvedPackage}

theorem OneSpelling.perm
    (hPerm : direct.Perm direct')
    (hOne : OneSpelling folder direct) :
    OneSpelling folder direct' := by
  intro id v u hV hU hEq
  exact hOne id v u (inPlay_perm hPerm.symm hV)
    (inPlay_perm hPerm.symm hU) hEq

/- A version is at most the other when its edge survives there too. -/
theorem Faithful.le_of_survives
    {version version' : NuGetVersion}
    (hFaithful : Faithful folder direct before w selected packages)
    (hFaithful' : Faithful folder direct' before' w' selected' packages')
    (hOne : OneSpelling folder direct)
    (hOne' : OneSpelling folder direct')
    (hSurvives : ∀ edge, Survives folder direct edge →
      Survives folder direct' edge)
    (hVersion : selected.get id = some version)
    (hVersion' : selected'.get id = some version') :
    version.Le version' := by
  have hEnded := hFaithful.settled.ended
  have hEnded' := hFaithful'.settled.ended
  rcases Option.isSome_iff_exists.1
    (hEnded.selects.only id (by rw [hVersion]; rfl)) with
    ⟨ranges, hRanges⟩
  rcases hEnded.selects.greatest id ranges hRanges with
    ⟨v, hV, hGreatest⟩
  rw [hVersion] at hV
  cases hV
  rcases hGreatest.attained with ⟨range, hMem, hBound⟩
  have hHere := (hFaithful.survives_iff hOne (id, range)).2
    ⟨ranges, hRanges, hMem⟩
  rcases (hFaithful'.survives_iff hOne' (id, range)).1
    (hSurvives _ hHere) with ⟨ranges', hRanges', hMem'⟩
  rcases hEnded'.selects.greatest id ranges' hRanges' with
    ⟨v', hV', hGreatest'⟩
  rw [hVersion'] at hV'
  cases hV'
  exact hGreatest'.upper range hMem' version hBound

/- Every package of one closure is in the other. -/
theorem Faithful.subset
    (hFaithful : Faithful folder direct before w selected packages)
    (hFaithful' : Faithful folder direct' before' w' selected' packages')
    (hPerm : direct.Perm direct')
    (hOne : OneSpelling folder direct)
    (hSurvives : ∀ edge, Survives folder direct edge ↔
      Survives folder direct' edge) :
    ∀ package ∈ packages, ∃ package' ∈ packages',
      package.identity.eq package'.identity = true := by
  have hOne' := hOne.perm hPerm
  intro package hMem
  rcases hFaithful.finished.of_mem hFaithful.settled.ended hMem with
    ⟨ranges, hRanges, hVersion⟩
  rcases List.exists_mem_of_ne_nil ranges
    (hFaithful.settled.ended.sound.bounds _ ranges hRanges).1 with
    ⟨range, hRange⟩
  have hHere := (hFaithful.survives_iff hOne
    (package.identity.id, range)).2 ⟨ranges, hRanges, hRange⟩
  rcases (hFaithful'.survives_iff hOne' (package.identity.id, range)).1
    ((hSurvives _).1 hHere) with ⟨ranges', hRanges', -⟩
  rcases hFaithful'.settled.ended.selects.greatest _ ranges' hRanges' with
    ⟨version', hVersion', -⟩
  have hLe := hFaithful.le_of_survives hFaithful' hOne hOne'
    (fun edge => (hSurvives edge).1) hVersion hVersion'
  have hGe := hFaithful'.le_of_survives hFaithful hOne' hOne
    (fun edge => (hSurvives edge).2) hVersion' hVersion
  have hEq : package.identity.version.eq version' = true := by
    have hNotGt := NuGetVersion.le_iff.1 hLe
    have hNotLt := NuGetVersion.le_iff.1 hGe
    have hSwap : version'.cmp package.identity.version =
        (package.identity.version.cmp version').swap :=
      Std.OrientedCmp.eq_swap
    unfold NuGetVersion.eq
    rw [beq_iff_eq]
    cases hCmp : package.identity.version.cmp version' with
    | eq =>
        rfl
    | gt =>
        exact absurd hCmp hNotGt
    | lt =>
        rw [hCmp] at hSwap
        exact absurd hSwap hNotLt
  have hStrict := hOne _ _ _ (hFaithful.chosen _ _ hVersion)
    (inPlay_perm hPerm.symm (hFaithful'.chosen _ _ hVersion')) hEq
  rcases (hFaithful'.finished.package hRanges' hVersion').1 with
    ⟨package', hMem', hIdentity⟩
  refine ⟨package', hMem', ?_⟩
  unfold PackageIdentity.eq
  rw [hIdentity, Bool.and_eq_true, decide_eq_true_iff]
  exact ⟨rfl, hStrict⟩

theorem resolve_offline_order_independent
    (folder : Folder E)
    (direct direct' : List DirectPackageRequirement)
    (targetFramework : NuGetFramework)
    (packages packages' : List ResolvedPackage)
    (hPerm : direct.Perm direct')
    (hDistinct : (direct.map fun requirement => requirement.id).Nodup)
    (hOne : OneSpelling folder direct)
    (hOk : resolveOffline folder direct targetFramework = .ok packages)
    (hOk' : resolveOffline folder direct' targetFramework =
      .ok packages') :
    (∀ package ∈ packages, ∃ package' ∈ packages',
      package.identity.eq package'.identity = true) ∧
    (∀ package' ∈ packages', ∃ package ∈ packages,
      package'.identity.eq package.identity = true) := by
  have hOne' := hOne.perm hPerm
  have hDistinct' :
      (direct'.map fun requirement => requirement.id).Nodup :=
    (hPerm.map _).nodup_iff.1 hDistinct
  rcases resolveOffline_faithful hOne.interchangeable hOk with
    ⟨before, w, selected, -, hFaithful⟩
  rcases resolveOffline_faithful hOne'.interchangeable hOk' with
    ⟨before', w', selected', -, hFaithful'⟩
  have hSurvives : ∀ edge, Survives folder direct edge ↔
      Survives folder direct' edge := by
    intro edge
    exact ⟨survives_perm hPerm hDistinct,
      survives_perm hPerm.symm hDistinct'⟩
  constructor
  · exact hFaithful.subset hFaithful' hPerm hOne hSurvives
  · exact hFaithful'.subset hFaithful hPerm.symm hOne'
      (fun edge => (hSurvives edge).symm)

end Order

theorem resolve_offline_order_independent_chain :
    ∃ packages packages',
      resolveOffline chainFolder
        [refersTo ['q'] version1, refersTo ['n'] version1]
        netStandard = .ok packages ∧
      resolveOffline chainFolder
        [refersTo ['n'] version1, refersTo ['q'] version1]
        netStandard = .ok packages' ∧
      (∀ package ∈ packages, ∃ package' ∈ packages',
        package.identity.eq package'.identity = true) ∧
      (∀ package' ∈ packages', ∃ package ∈ packages,
        package'.identity.eq package.identity = true) := by
  have hIsOk : (resolveOffline chainFolder
      [refersTo ['q'] version1, refersTo ['n'] version1]
      netStandard).isOk = true := by
    decide
  have hIsOk' : (resolveOffline chainFolder
      [refersTo ['n'] version1, refersTo ['q'] version1]
      netStandard).isOk = true := by
    decide
  have hOne : OneSpelling chainFolder
      [refersTo ['q'] version1, refersTo ['n'] version1] := by
    intro id v u hV hU _
    have hKnown : ∀ requirement ∈
        [refersTo ['q'] version1, refersTo ['n'] version1],
        requirement = refersTo ['q'] version1 ∨
          requirement = refersTo ['n'] version1 := by
      intro requirement hMem
      simpa using hMem
    rw [chainFolder_inPlay hKnown hV, chainFolder_inPlay hKnown hU]
    decide
  cases hOk : resolveOffline chainFolder
      [refersTo ['q'] version1, refersTo ['n'] version1] netStandard with
  | error stop =>
      rw [hOk] at hIsOk
      cases hIsOk
  | ok packages =>
      cases hOk' : resolveOffline chainFolder
          [refersTo ['n'] version1, refersTo ['q'] version1]
          netStandard with
      | error stop =>
          rw [hOk'] at hIsOk'
          cases hIsOk'
      | ok packages' =>
          exact ⟨packages, packages', rfl, rfl,
            resolve_offline_order_independent _ _ _ _ _ _
              (List.Perm.swap _ _ _) (by decide) hOne hOk hOk'⟩

end NuGet

end Borzoi
