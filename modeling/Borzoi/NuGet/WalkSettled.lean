import Borzoi.NuGet.WalkSound

/-
  Settled walks.

  A walk that selects what it started from never raises a version, so
  every node was expanded at the selected version and every edge was
  classified against it.
-/

namespace Borzoi

namespace NuGet

open Traversal

variable {E : Type}

/- What one dependency does to a walk. -/
inductive EdgeStep
    (folder : Folder E)
    (direct : List DirectPackageRequirement)
    (node depIndex : Nat)
    (id : PackageId)
    (range : VersionRange)
    (w : Walking) :
    Walking → Prop
  | eclipsed
      (hVerdict : classify folder direct w.nodes node id range w.current =
        .ok .Eclipsed) :
      EdgeStep folder direct node depIndex id range w w
  | floats
      (hVerdict : classify folder direct w.nodes node id range w.current =
        .ok .FloatCompared) :
      EdgeStep folder direct node depIndex id range w
        { w with floatCompared := w.floatCompared.or (some (id, range)) }
  | cycle
      {path : List PackageId}
      (hVerdict : classify folder direct w.nodes node id range w.current =
        .ok .Cycle) :
      EdgeStep folder direct node depIndex id range w
        { w with cycle := some path }
  | downgraded
      (hVerdict : classify folder direct w.nodes node id range w.current =
        .ok .PotentiallyDowngraded) :
      EdgeStep folder direct node depIndex id range w
        { w with downgrades := w.downgrades ++ [⟨id, range, node⟩] }
  | lost
      {bound : NuGetVersion}
      (hVerdict : classify folder direct w.nodes node id range w.current =
        .ok .Acceptable)
      (hBound : range.exactBound = some bound)
      (hLost : isWinner (raise w.current id bound) id bound = false) :
      EdgeStep folder direct node depIndex id range w
        (loseEdge node depIndex id bound
          (surviveEdge node id range bound w))
  | expanded
      {bound : NuGetVersion}
      (hVerdict : classify folder direct w.nodes node id range w.current =
        .ok .Acceptable)
      (hBound : range.exactBound = some bound)
      (hWon : isWinner (raise w.current id bound) id bound = true) :
      EdgeStep folder direct node depIndex id range w
        (expandEdge node depIndex id (surviveEdge node id range bound w))

variable {edges : List Edge} {more nodes nodes' : List Node} {fuel i : Nat}
variable {n : Node} {id : PackageId} {verdict : Verdict} {range : VersionRange}

section Steps

variable {folder : Folder E} {direct : List DirectPackageRequirement}
variable {w w' : Walking} {node depIndex : Nat}

theorem walkEdge_step
    (hOk : walkEdge folder direct node depIndex (id, range) w = .ok w') :
    EdgeStep folder direct node depIndex id range w w' := by
  unfold walkEdge at hOk
  dsimp only at hOk
  split at hOk
  · cases hOk
  · next hVerdict =>
      cases hOk
      exact .eclipsed hVerdict
  · next hVerdict =>
      cases hOk
      exact .floats hVerdict
  · next hVerdict =>
      split at hOk
      · next path hPath =>
          cases hOk
          have hStep : EdgeStep folder direct node depIndex id range w
              { w with cycle := some path } := .cycle hVerdict
          rw [← hPath] at hStep
          exact hStep
      · split at hOk
        · cases hOk
        · cases hOk
          exact .cycle hVerdict
  · next hVerdict =>
      cases hOk
      exact .downgraded hVerdict
  · next hVerdict =>
      unfold acceptEdge at hOk
      split at hOk
      · cases hOk
      · next bound hExact =>
          have hBound := exactBound_of_ok hExact
          split at hOk
          · cases hOk
          · dsimp only at hOk
            split at hOk
            · next hLost =>
                cases hOk
                rw [Bool.not_eq_true'] at hLost
                exact .lost hVerdict hBound hLost
            · next hWon =>
                split at hOk
                · cases hOk
                · cases hOk
                  rw [Bool.not_eq_true', Bool.not_eq_false] at hWon
                  exact .expanded hVerdict hBound hWon

end Steps

/- The dependencies of an installed package that the walk follows. -/
def followedEdges
    (folder : Folder E)
    (identity : PackageIdentity) :
    List Edge :=
  match folder.get identity with
  | none => []
  | some cached =>
      match modelledDependencies cached.dependencies with
      | .ok edges => edges
      | .error _ => []

/- The dependencies of a node that the walk follows. -/
def nodeEdges
    (folder : Folder E)
    (direct : List DirectPackageRequirement)
    (current : Versions)
    (node : Node) :
    List Edge :=
  match node.id with
  | none => directEdges direct
  | some id =>
      match current.get id with
      | none => []
      | some version => followedEdges folder ⟨id, version⟩

/- The shape that stops the walk at a package. -/
def unmodelled
    (folder : Folder E)
    (identity : PackageIdentity) :
    Option ShapeError :=
  match folder.get identity with
  | none => none
  | some cached =>
      match modelledDependencies cached.dependencies with
      | .ok _ => none
      | .error shape => some shape

/- Note the shape of a node, if it has one. -/
def noteShape
    (folder : Folder E)
    (current : Versions)
    (node : Node)
    (shapes : Shapes) :
    Shapes :=
  match node.id with
  | none => shapes
  | some id =>
      match current.get id with
      | none => shapes
      | some version =>
          match unmodelled folder ⟨id, version⟩ with
          | none => shapes
          | some shape => shapes.insert (shapeKey ⟨id, version⟩) shape

section Steps

variable {folder : Folder E} {direct : List DirectPackageRequirement}
variable {w w' : Walking} {node depIndex : Nat}

variable {shapes : Shapes} {current : Versions}

theorem nodeDependencies_cases
    (hOk : nodeDependencies folder direct node w = .ok (edges, shapes)) :
    ∃ n, w.nodes[node]? = some n ∧
      edges = nodeEdges folder direct w.current n ∧
      shapes = noteShape folder w.current n w.shapes := by
  unfold nodeDependencies at hOk
  split at hOk
  · cases hOk
  · next n hNode =>
      refine ⟨n, hNode, ?_⟩
      unfold nodeEdges noteShape
      cases hId : n.id with
      | none =>
          rw [hId] at hOk
          cases hOk
          exact ⟨rfl, rfl⟩
      | some id =>
          rw [hId] at hOk
          dsimp only at hOk ⊢
          cases hVersion : w.current.get id with
          | none =>
              rw [hVersion] at hOk
              cases hOk
          | some version =>
              rw [hVersion] at hOk
              dsimp only at hOk ⊢
              unfold followedEdges unmodelled
              cases hGet : folder.get ⟨id, version⟩ with
              | none =>
                  rw [hGet] at hOk
                  cases hOk
                  exact ⟨rfl, rfl⟩
              | some cached =>
                  rw [hGet] at hOk
                  dsimp only at hOk ⊢
                  cases hModelled :
                      modelledDependencies cached.dependencies with
                  | ok followed =>
                      rw [hModelled] at hOk
                      cases hOk
                      exact ⟨rfl, rfl⟩
                  | error shape =>
                      rw [hModelled] at hOk
                      cases hOk
                      exact ⟨rfl, rfl⟩

theorem noteShape_keeps
    {key : PackageId × List Char}
    (hSome : (shapes.get key).isSome) :
    ((noteShape folder current n shapes).get key).isSome := by
  unfold noteShape
  split
  · exact hSome
  · split
    · exact hSome
    · split
      · exact hSome
      · next id _ _ version _ _ _ _ =>
          by_cases hSame : key = shapeKey ⟨id, version⟩
          · rw [hSame, SortedMap.get_insert_self]
            rfl
          · rw [SortedMap.get_insert_of_ne hSame]
            exact hSome

theorem noteShape_notes
    {version : NuGetVersion}
    (hId : n.id = some id)
    (hVersion : current.get id = some version)
    (hShape : (unmodelled folder ⟨id, version⟩).isSome) :
    ((noteShape folder current n shapes).get
      (shapeKey ⟨id, version⟩)).isSome := by
  rcases Option.isSome_iff_exists.1 hShape with ⟨shape, hSome⟩
  unfold noteShape
  rw [hId]
  dsimp only
  rw [hVersion]
  dsimp only
  rw [hSome]
  dsimp only
  rw [SortedMap.get_insert_self]
  rfl

/- Nothing that was found is forgotten. -/
structure Extends
    (w w' : Walking) :
    Prop where
  nodes : ∃ more, w'.nodes = w.nodes ++ more
  edges : ∀ id ranges, w.edges.get id = some ranges →
    ∃ more, w'.edges.get id = some (ranges ++ more)
  losers : ∀ loser ∈ w.losers, loser ∈ w'.losers
  cycle : w.cycle.isSome → w'.cycle.isSome
  floatCompared : w.floatCompared.isSome → w'.floatCompared.isSome
  shapes : ∀ key, (w.shapes.get key).isSome → (w'.shapes.get key).isSome

theorem Extends.refl
    (w : Walking) :
    Extends w w := by
  refine ⟨⟨[], (List.append_nil _).symm⟩, ?_, fun _ hMem => hMem, id, id,
    fun _ hSome => hSome⟩
  intro id ranges hGet
  exact ⟨[], by rw [List.append_nil]; exact hGet⟩

theorem Extends.trans
    {w'' : Walking}
    (hFirst : Extends w w')
    (hSecond : Extends w' w'') :
    Extends w w'' := by
  rcases hFirst.nodes with ⟨more, hMore⟩
  rcases hSecond.nodes with ⟨more', hMore'⟩
  refine ⟨⟨more ++ more', ?_⟩, ?_, ?_, ?_, ?_, ?_⟩
  · rw [hMore', hMore, List.append_assoc]
  · intro id ranges hGet
    rcases hFirst.edges id ranges hGet with ⟨extra, hExtra⟩
    rcases hSecond.edges id _ hExtra with ⟨extra', hExtra'⟩
    exact ⟨extra ++ extra', by
      rw [hExtra', List.append_assoc]⟩
  · intro loser hMem
    exact hSecond.losers loser (hFirst.losers loser hMem)
  · intro hSome
    exact hSecond.cycle (hFirst.cycle hSome)
  · intro hSome
    exact hSecond.floatCompared (hFirst.floatCompared hSome)
  · intro key hSome
    exact hSecond.shapes key (hFirst.shapes key hSome)

theorem surviveEdge_extends
    {bound : NuGetVersion} :
    Extends w (surviveEdge node id range bound w) := by
  refine ⟨⟨[], (List.append_nil _).symm⟩, ?_, fun _ hMem => hMem, fun h => h,
    fun h => h, fun _ hSome => hSome⟩
  intro id' ranges hGet
  by_cases hSame : id' = id
  · refine ⟨[range], ?_⟩
    unfold surviveEdge
    dsimp only
    rw [hSame] at hGet
    rw [hSame, SortedMap.get_insert_self, hGet]
    rfl
  · refine ⟨[], ?_⟩
    unfold surviveEdge
    dsimp only
    rw [SortedMap.get_insert_of_ne hSame, List.append_nil]
    exact hGet

theorem EdgeStep.extends
    (hStep : EdgeStep folder direct node depIndex id range w w') :
    Extends w w' := by
  have hRefl := Extends.refl w
  cases hStep with
  | eclipsed hVerdict =>
      exact hRefl
  | floats hVerdict =>
      refine ⟨hRefl.nodes, hRefl.edges, hRefl.losers, hRefl.cycle, ?_,
        hRefl.shapes⟩
      intro hSome
      rcases Option.isSome_iff_exists.1 hSome with ⟨edge, hEdge⟩
      rw [hEdge]
      rfl
  | cycle hVerdict =>
      refine ⟨hRefl.nodes, hRefl.edges, hRefl.losers, ?_,
        hRefl.floatCompared, hRefl.shapes⟩
      intro _
      rfl
  | downgraded hVerdict =>
      exact ⟨hRefl.nodes, hRefl.edges, hRefl.losers, hRefl.cycle,
        hRefl.floatCompared, hRefl.shapes⟩
  | @lost bound hVerdict hBound hLost =>
      apply surviveEdge_extends.trans
      have hRefl' := Extends.refl (surviveEdge node id range bound w)
      refine ⟨hRefl'.nodes, hRefl'.edges, ?_, hRefl'.cycle,
        hRefl'.floatCompared, hRefl'.shapes⟩
      intro loser hMem
      exact List.mem_append_left _ hMem
  | @expanded bound hVerdict hBound hWon =>
      apply surviveEdge_extends.trans
      have hRefl' := Extends.refl (surviveEdge node id range bound w)
      exact ⟨⟨_, rfl⟩, hRefl'.edges, hRefl'.losers, hRefl'.cycle,
        hRefl'.floatCompared, hRefl'.shapes⟩

theorem walkEdges_extends
    (hOk : walkEdges folder direct node edges depIndex w = .ok w') :
    Extends w w' := by
  induction edges generalizing depIndex w with
  | nil =>
      cases hOk
      exact Extends.refl _
  | cons edge edges ih =>
      rcases edge with ⟨id, range⟩
      unfold walkEdges at hOk
      split at hOk
      · cases hOk
      · next next hHead =>
          exact (walkEdge_step hHead).extends.trans (ih hOk)

theorem walkNode_extends
    (hOk : walkNode folder direct node w = .ok w') :
    Extends w w' := by
  unfold walkNode at hOk
  split at hOk
  · cases hOk
  · next edges shapes hDependencies =>
      have hRefl := Extends.refl w
      have hShapes : Extends w { w with shapes := shapes } := by
        refine ⟨hRefl.nodes, hRefl.edges, hRefl.losers, hRefl.cycle,
          hRefl.floatCompared, ?_⟩
        intro key hSome
        rcases nodeDependencies_cases hDependencies with
          ⟨n, -, -, rfl⟩
        exact noteShape_keeps hSome
      exact hShapes.trans (walkEdges_extends hOk)

theorem walkLoop_extends
    (hOk : walkLoop folder direct fuel w = .ok w') :
    Extends w w' := by
  induction fuel generalizing w with
  | zero =>
      cases hOk
  | succ fuel ih =>
      unfold walkLoop at hOk
      split at hOk
      · cases hOk
        exact Extends.refl _
      · next stack hStack =>
        split at hOk
        · cases hOk
        · next hNode =>
            have hPopped : Extends w { w with stack := stack } := by
              have hRefl := Extends.refl w
              exact ⟨hRefl.nodes, hRefl.edges, hRefl.losers, hRefl.cycle,
                hRefl.floatCompared, hRefl.shapes⟩
            exact (hPopped.trans (walkNode_extends hNode)).trans (ih hOk)

theorem getElem?_of_isPrefix
    {α : Type}
    {xs ys more : List α}
    {x : α}
    (hMore : ys = xs ++ more)
    (hGet : xs[i]? = some x) :
    ys[i]? = some x := by
  rcases List.getElem?_eq_some_iff.1 hGet with ⟨hLt, -⟩
  rw [hMore, List.getElem?_append_left hLt]
  exact hGet

/- New nodes and more fuel do not change a verdict. -/
theorem classifyAbove_append
    {fuel fuel' : Nat}
    {child : Node}
    {ancestor : Option Nat}
    (hMore : nodes' = nodes ++ more)
    (hLe : fuel ≤ fuel')
    (hOk : classifyAbove folder direct nodes id range current fuel child
      ancestor = .ok verdict) :
    classifyAbove folder direct nodes' id range current fuel' child
      ancestor = .ok verdict := by
  induction fuel generalizing fuel' child ancestor with
  | zero =>
      cases hOk
  | succ fuel ih =>
      cases fuel' with
      | zero =>
          omega
      | succ fuel' =>
          cases ancestor with
          | none =>
              exact hOk
          | some index =>
              unfold classifyAbove at hOk ⊢
              cases hNode : nodes[index]? with
              | none =>
                  rw [hNode] at hOk
                  cases hOk
              | some n =>
                  rw [hNode] at hOk
                  rw [getElem?_of_isPrefix hMore hNode]
                  dsimp only at hOk ⊢
                  by_cases hCycle : n.id = some id
                  · rw [if_pos hCycle] at hOk ⊢
                    exact hOk
                  · rw [if_neg hCycle] at hOk ⊢
                    split at hOk
                    · exact hOk
                    · exact ih (Nat.le_of_succ_le_succ hLe) hOk

theorem classify_append
    {parent : Nat}
    (hMore : nodes' = nodes ++ more)
    (hOk : classify folder direct nodes parent id range current =
      .ok verdict) :
    classify folder direct nodes' parent id range current =
      .ok verdict := by
  unfold classify at hOk ⊢
  cases hNode : nodes[parent]? with
  | none =>
      rw [hNode] at hOk
      cases hOk
  | some n =>
      rw [hNode] at hOk
      rw [getElem?_of_isPrefix hMore hNode]
      dsimp only at hOk ⊢
      by_cases hSelf : n.id = some id
      · rw [if_pos hSelf] at hOk ⊢
        exact hOk
      · rw [if_neg hSelf] at hOk ⊢
        apply classifyAbove_append hMore _ hOk
        rw [hMore, List.length_append]
        omega

end Steps

------------------------------------------------------------
-- Traces
------------------------------------------------------------

/- No lower bound is above the selected version of its package. -/
def Fits
    (selected : Versions)
    (edges : EdgeMap) :
    Prop :=
  ∀ id ranges, edges.get id = some ranges →
    ∃ version, selected.get id = some version ∧
      ∀ range ∈ ranges, ∀ bound, range.exactBound = some bound →
        bound.Le version

/- An edge that was classified as acceptable, and its lower bound. -/
structure Accepts
    (folder : Folder E)
    (direct : List DirectPackageRequirement)
    (selected : Versions)
    (nodes : List Node)
    (i k : Nat)
    (edge : Edge)
    (bound : NuGetVersion) :
    Prop where
  found : ∃ n, nodes[i]? = some n ∧
    (nodeEdges folder direct selected n)[k]? = some edge
  verdict : classify folder direct nodes i edge.1 edge.2 selected =
    .ok .Acceptable
  exact : edge.2.exactBound = some bound

/- What a walk has noted of an edge. -/
def Noted
    (selected : Versions)
    (w : Walking)
    (i k : Nat)
    (edge : Edge)
    (verdict : Verdict) :
    Prop :=
  match verdict with
  | .Eclipsed => True
  | .PotentiallyDowngraded => True
  | .FloatCompared => w.floatCompared.isSome
  | .Cycle => w.cycle.isSome
  | .Acceptable =>
      (∃ ranges, w.edges.get edge.1 = some ranges ∧ edge.2 ∈ ranges) ∧
      ∃ bound, edge.2.exactBound = some bound ∧
        ((isWinner selected edge.1 bound = true ∧
            ⟨some edge.1, some i, k⟩ ∈ w.nodes) ∨
          (isWinner selected edge.1 bound = false ∧
            ⟨⟨edge.1, bound⟩, i, k⟩ ∈ w.losers))

/- What holds in a walk whose versions never rise, where `handled` says
   which dependencies it has been through. -/
structure Traced
    (folder : Folder E)
    (direct : List DirectPackageRequirement)
    (selected : Versions)
    (handled : Nat → Nat → Prop)
    (w : Walking) :
    Prop where
  current : w.current = selected
  noted : ∀ i k n edge, w.nodes[i]? = some n →
    (nodeEdges folder direct selected n)[k]? = some edge → handled i k →
    ∃ verdict, classify folder direct w.nodes i edge.1 edge.2 selected =
      .ok verdict ∧ Noted selected w i k edge verdict
  node : ∀ j n, w.nodes[j]? = some n → j ≠ 0 → ∃ id i k range bound,
    n = ⟨some id, some i, k⟩ ∧
    Accepts folder direct selected w.nodes i k (id, range) bound ∧
    isWinner selected id bound = true
  edge : ∀ id ranges, w.edges.get id = some ranges →
    ∀ range ∈ ranges, ∃ i k bound,
      Accepts folder direct selected w.nodes i k (id, range) bound
  loser : ∀ loser ∈ w.losers, ∃ range,
    Accepts folder direct selected w.nodes loser.parent loser.depIndex
      (loser.identity.id, range) loser.identity.version ∧
    isWinner selected loser.identity.id loser.identity.version = false
  shape : ∀ (i : Nat) (n : Node) id version, w.nodes[i]? = some n →
    i ∉ w.stack → n.id = some id → selected.get id = some version →
    (unmodelled folder ⟨id, version⟩).isSome →
    (w.shapes.get (shapeKey ⟨id, version⟩)).isSome

section Traces

variable {folder : Folder E} {direct : List DirectPackageRequirement}
variable {selected : Versions} {w w' : Walking}

theorem Fits.of_extends
    (hExtends : Extends w w')
    (hFits : Fits selected w'.edges) :
    Fits selected w.edges := by
  intro id ranges hGet
  rcases hExtends.edges id ranges hGet with ⟨more, hMore⟩
  rcases hFits id _ hMore with ⟨version, hVersion, hBounds⟩
  refine ⟨version, hVersion, ?_⟩
  intro range hMem
  exact hBounds range (List.mem_append_left _ hMem)

variable {edge : Edge} {k node : Nat} {bound : NuGetVersion}

/- A bound that fits does not raise a version. -/
theorem raise_fits
    (node : Nat)
    (hBound : range.exactBound = some bound)
    (hFits : Fits selected (surviveEdge node id range bound w).edges) :
    raise selected id bound = selected := by
  rcases hFits id _ SortedMap.get_insert_self with
    ⟨version, hVersion, hBounds⟩
  have hLe := hBounds range
    (List.mem_append_right _ (List.mem_singleton.2 rfl)) bound hBound
  unfold raise
  rw [hVersion]
  exact if_neg (NuGetVersion.le_iff.1 hLe)

theorem Accepts.extend
    (hMore : nodes' = nodes ++ more)
    (hAccepts : Accepts folder direct selected nodes i k edge bound) :
    Accepts folder direct selected nodes' i k edge bound := by
  rcases hAccepts.found with ⟨n, hNode, hEdge⟩
  exact ⟨⟨n, getElem?_of_isPrefix hMore hNode, hEdge⟩,
    classify_append hMore hAccepts.verdict, hAccepts.exact⟩

theorem Noted.extend
    (hExtends : Extends w w')
    (hNoted : Noted selected w i k edge verdict) :
    Noted selected w' i k edge verdict := by
  cases verdict with
  | Eclipsed =>
      trivial
  | PotentiallyDowngraded =>
      trivial
  | FloatCompared =>
      exact hExtends.floatCompared hNoted
  | Cycle =>
      exact hExtends.cycle hNoted
  | Acceptable =>
      rcases hNoted with ⟨⟨ranges, hGet, hMem⟩, bound, hBound, hCase⟩
      rcases hExtends.edges edge.1 ranges hGet with ⟨more, hMore⟩
      refine ⟨⟨_, hMore, List.mem_append_left _ hMem⟩, bound, hBound, ?_⟩
      rcases hCase with ⟨hWon, hNode⟩ | ⟨hLost, hLoser⟩
      · rcases hExtends.nodes with ⟨more', hMore'⟩
        refine Or.inl ⟨hWon, ?_⟩
        rw [hMore']
        exact List.mem_append_left _ hNode
      · exact Or.inr ⟨hLost, hExtends.losers _ hLoser⟩

/- The dependencies behind a walk that is at one of a node. -/
def through
    (w : Walking)
    (node k i j : Nat) :
    Prop :=
  i ∉ w.stack ∧ (i = node → j < k)

/- A step keeps the trace when what it adds comes from its edge. -/
theorem Traced.step
    {node k : Nat}
    {n : Node}
    {id : PackageId}
    {range : VersionRange}
    (hTraced : Traced folder direct selected (through w node k) w)
    (hNode : w.nodes[node]? = some n)
    (hEdge : (nodeEdges folder direct selected n)[k]? = some (id, range))
    (hExtends : Extends w w')
    (hCurrent : w'.current = selected)
    (hOld : ∀ (i : Nat) (n' : Node), w'.nodes[i]? = some n' →
      i ∉ w'.stack →
      w.nodes[i]? = some n' ∧ i ∉ w.stack)
    (hNew : ∃ verdict,
      classify folder direct w'.nodes node id range selected =
        .ok verdict ∧ Noted selected w' node k (id, range) verdict)
    (hNodes : ∀ (j : Nat) (n' : Node), w'.nodes[j]? = some n' →
      w.nodes[j]? = some n' ∨ ∃ bound, n' = ⟨some id, some node, k⟩ ∧
        Accepts folder direct selected w.nodes node k (id, range) bound ∧
        isWinner selected id bound = true)
    (hEdges : ∀ id' ranges, w'.edges.get id' = some ranges →
      ∀ r ∈ ranges,
        (∃ ranges', w.edges.get id' = some ranges' ∧ r ∈ ranges') ∨
        id' = id ∧ r = range ∧ ∃ bound,
          Accepts folder direct selected w.nodes node k (id, range) bound)
    (hLosers : ∀ loser ∈ w'.losers, loser ∈ w.losers ∨
      ∃ bound, loser = ⟨⟨id, bound⟩, node, k⟩ ∧
        Accepts folder direct selected w.nodes node k (id, range) bound ∧
        isWinner selected id bound = false) :
    Traced folder direct selected (through w' node (k + 1)) w' := by
  rcases hExtends.nodes with ⟨more, hMore⟩
  refine ⟨hCurrent, ?_, ?_, ?_, ?_, ?_⟩
  · rintro i j n' edge hNode' hEdge' ⟨hOff, hUpTo⟩
    rcases hOld i n' hNode' hOff with ⟨hBefore, hOff'⟩
    by_cases hHere : i = node ∧ j = k
    · rcases hHere with ⟨rfl, rfl⟩
      rw [hNode] at hBefore
      cases hBefore
      rw [hEdge] at hEdge'
      cases hEdge'
      exact hNew
    · have hThrough : through w node k i j := by
        refine ⟨hOff', ?_⟩
        intro hIs
        have hLt := hUpTo hIs
        by_contra hGe
        exact hHere ⟨hIs, by omega⟩
      rcases hTraced.noted i j n' edge hBefore hEdge' hThrough with
        ⟨verdict, hVerdict, hNoted⟩
      exact ⟨verdict, classify_append hMore hVerdict,
        hNoted.extend hExtends⟩
  · intro j n' hNode' hZero
    rcases hNodes j n' hNode' with hBefore | ⟨bound, hEq, hAccepts, hWon⟩
    · rcases hTraced.node j n' hBefore hZero with
        ⟨id', i, k', range', bound, hEq, hAccepts, hWon⟩
      exact ⟨id', i, k', range', bound, hEq, hAccepts.extend hMore, hWon⟩
    · exact ⟨id, node, k, range, bound, hEq, hAccepts.extend hMore, hWon⟩
  · intro id' ranges hGet r hMem
    rcases hEdges id' ranges hGet r hMem with
      ⟨ranges', hGet', hMem'⟩ | ⟨rfl, rfl, bound, hAccepts⟩
    · rcases hTraced.edge id' ranges' hGet' r hMem' with
        ⟨i, k', bound, hAccepts⟩
      exact ⟨i, k', bound, hAccepts.extend hMore⟩
    · exact ⟨node, k, bound, hAccepts.extend hMore⟩
  · intro loser hMem
    rcases hLosers loser hMem with hBefore | ⟨bound, rfl, hAccepts, hLost⟩
    · rcases hTraced.loser loser hBefore with ⟨range', hAccepts, hLost⟩
      exact ⟨range', hAccepts.extend hMore, hLost⟩
    · exact ⟨range, hAccepts.extend hMore, hLost⟩
  · intro i n' id' version hNode' hOff hId hVersion hShape
    rcases hOld i n' hNode' hOff with ⟨hBefore, hOff'⟩
    exact hExtends.shapes _
      (hTraced.shape i n' id' version hBefore hOff' hId hVersion hShape)

theorem surviveEdge_edges
    {id id' : PackageId}
    {ranges : List VersionRange}
    (hGet : (w.edges.insert id ((w.edges.get id).getD [] ++ [range])).get
      id' = some ranges)
    {r : VersionRange}
    (hMem : r ∈ ranges) :
    (∃ ranges', w.edges.get id' = some ranges' ∧ r ∈ ranges') ∨
      id' = id ∧ r = range := by
  rcases edges_push hGet with ⟨hId, hRanges⟩ | hOld
  · rw [hRanges] at hMem
    rcases List.mem_append.1 hMem with hBefore | hHere
    · cases hCase : w.edges.get id with
      | none =>
          rw [hCase] at hBefore
          cases hBefore
      | some before =>
          rw [hCase] at hBefore
          rw [hId]
          exact Or.inl ⟨before, hCase, hBefore⟩
    · exact Or.inr ⟨hId, List.mem_singleton.1 hHere⟩
  · exact Or.inl ⟨ranges, hOld, hMem⟩

theorem EdgeStep.traced
    (hTraced : Traced folder direct selected (through w node k) w)
    (hNode : w.nodes[node]? = some n)
    (hEdge : (nodeEdges folder direct selected n)[k]? = some (id, range))
    (hStep : EdgeStep folder direct node k id range w w')
    (hFits : Fits selected w'.edges) :
    Traced folder direct selected (through w' node (k + 1)) w' := by
  have hCurrent := hTraced.current
  have hKeepEdges : ∀ id' ranges, w.edges.get id' = some ranges →
      ∀ r ∈ ranges,
        (∃ ranges', w.edges.get id' = some ranges' ∧ r ∈ ranges') ∨
        id' = id ∧ r = range ∧ ∃ bound,
          Accepts folder direct selected w.nodes node k (id, range)
            bound := by
    intro id' ranges hGet r hMem
    exact Or.inl ⟨ranges, hGet, hMem⟩
  have hExtends := hStep.extends
  cases hStep with
  | eclipsed hVerdict =>
      rw [hCurrent] at hVerdict
      exact hTraced.step hNode hEdge hExtends hCurrent
        (fun i n' hGet hOff => ⟨hGet, hOff⟩) ⟨_, hVerdict, trivial⟩
        (fun j n' hGet => Or.inl hGet) hKeepEdges
        (fun loser hMem => Or.inl hMem)
  | floats hVerdict =>
      rw [hCurrent] at hVerdict
      refine hTraced.step hNode hEdge hExtends hCurrent
        (fun i n' hGet hOff => ⟨hGet, hOff⟩) ⟨_, hVerdict, ?_⟩
        (fun j n' hGet => Or.inl hGet) hKeepEdges
        (fun loser hMem => Or.inl hMem)
      unfold Noted
      dsimp only
      cases w.floatCompared with
      | none =>
          rfl
      | some edge =>
          rfl
  | cycle hVerdict =>
      rw [hCurrent] at hVerdict
      exact hTraced.step hNode hEdge hExtends hCurrent
        (fun i n' hGet hOff => ⟨hGet, hOff⟩) ⟨_, hVerdict, rfl⟩
        (fun j n' hGet => Or.inl hGet) hKeepEdges
        (fun loser hMem => Or.inl hMem)
  | downgraded hVerdict =>
      rw [hCurrent] at hVerdict
      exact hTraced.step hNode hEdge hExtends hCurrent
        (fun i n' hGet hOff => ⟨hGet, hOff⟩) ⟨_, hVerdict, trivial⟩
        (fun j n' hGet => Or.inl hGet) hKeepEdges
        (fun loser hMem => Or.inl hMem)
  | @lost bound hVerdict hBound hLost =>
      have hRaise := raise_fits node hBound hFits
      rw [hCurrent] at hVerdict hLost
      rw [hRaise] at hLost
      have hAccepts : Accepts folder direct selected w.nodes node k
          (id, range) bound := ⟨⟨n, hNode, hEdge⟩, hVerdict, hBound⟩
      refine hTraced.step hNode hEdge hExtends ?_
        (fun i n' hGet hOff => ⟨hGet, hOff⟩) ⟨_, hVerdict, ?_⟩
        (fun j n' hGet => Or.inl hGet) ?_ ?_
      · show raise w.current id bound = selected
        rw [hCurrent]
        exact hRaise
      · refine ⟨⟨_, SortedMap.get_insert_self, ?_⟩, bound, hBound,
          Or.inr ⟨hLost, ?_⟩⟩
        · exact List.mem_append_right _ (List.mem_singleton.2 rfl)
        · exact List.mem_append_right _ (List.mem_singleton.2 rfl)
      · intro id' ranges hGet r hMem
        rcases surviveEdge_edges hGet hMem with hOld | ⟨hId, hR⟩
        · exact Or.inl hOld
        · exact Or.inr ⟨hId, hR, bound, hAccepts⟩
      · intro loser hMem
        rcases List.mem_append.1 hMem with hOld | hHere
        · exact Or.inl hOld
        · exact Or.inr ⟨bound, List.mem_singleton.1 hHere, hAccepts,
            hLost⟩
  | @expanded bound hVerdict hBound hWon =>
      have hRaise := raise_fits node hBound hFits
      rw [hCurrent] at hVerdict hWon
      rw [hRaise] at hWon
      have hAccepts : Accepts folder direct selected w.nodes node k
          (id, range) bound := ⟨⟨n, hNode, hEdge⟩, hVerdict, hBound⟩
      have hNodes : (expandEdge node k id
          (surviveEdge node id range bound w)).nodes =
          w.nodes ++ [⟨some id, some node, k⟩] := rfl
      refine hTraced.step hNode hEdge hExtends ?_ ?_
        ⟨_, classify_append hNodes hVerdict, ?_⟩ ?_ ?_
        (fun loser hMem => Or.inl hMem)
      · show raise w.current id bound = selected
        rw [hCurrent]
        exact hRaise
      · intro i n' hGet hOff
        have hNe : i ≠ w.nodes.length := by
          intro hIs
          apply hOff
          rw [hIs]
          exact List.mem_cons_self
        rw [hNodes] at hGet
        have hLt : i < w.nodes.length := by
          rcases List.getElem?_eq_some_iff.1 hGet with ⟨hLt, -⟩
          rw [List.length_append, List.length_singleton] at hLt
          omega
        rw [List.getElem?_append_left hLt] at hGet
        refine ⟨hGet, ?_⟩
        intro hOn
        exact hOff (List.mem_cons_of_mem _ hOn)
      · refine ⟨⟨_, SortedMap.get_insert_self, ?_⟩, bound, hBound,
          Or.inl ⟨hWon, ?_⟩⟩
        · exact List.mem_append_right _ (List.mem_singleton.2 rfl)
        · exact List.mem_append_right _ (List.mem_singleton.2 rfl)
      · intro j n' hGet
        rw [hNodes] at hGet
        rcases Nat.lt_or_ge j w.nodes.length with hLt | hGe
        · rw [List.getElem?_append_left hLt] at hGet
          exact Or.inl hGet
        · rw [List.getElem?_append_right hGe] at hGet
          exact Or.inr ⟨bound,
            List.mem_singleton.1 (List.mem_of_getElem? hGet), hAccepts,
            hWon⟩
      · intro id' ranges hGet r hMem
        rcases surviveEdge_edges hGet hMem with hOld | ⟨hId, hR⟩
        · exact Or.inl hOld
        · exact Or.inr ⟨hId, hR, bound, hAccepts⟩

theorem walkEdges_traced
    (hTraced : Traced folder direct selected (through w node k) w)
    (hNode : w.nodes[node]? = some n)
    (hEdges : edges = (nodeEdges folder direct selected n).drop k)
    (hOk : walkEdges folder direct node edges k w = .ok w')
    (hFits : Fits selected w'.edges) :
    Traced folder direct selected (fun i _ => i ∉ w'.stack) w' := by
  induction edges generalizing k w with
  | nil =>
      cases hOk
      have hAll : (nodeEdges folder direct selected n).length ≤ k :=
        List.drop_eq_nil_iff.1 hEdges.symm
      refine ⟨hTraced.current, ?_, hTraced.node, hTraced.edge,
        hTraced.loser, hTraced.shape⟩
      intro i j n' edge hNode' hEdge' hOff
      apply hTraced.noted i j n' edge hNode' hEdge'
      refine ⟨hOff, ?_⟩
      rintro rfl
      rw [hNode] at hNode'
      cases hNode'
      rcases List.getElem?_eq_some_iff.1 hEdge' with ⟨hLt, -⟩
      omega
  | cons edge edges ih =>
      rcases edge with ⟨id, range⟩
      have hHere : (nodeEdges folder direct selected n)[k]? =
          some (id, range) := by
        have hHead : ((nodeEdges folder direct selected n).drop k)[0]? =
            some (id, range) := by
          rw [← hEdges]
          rfl
        rw [List.getElem?_drop] at hHead
        exact hHead
      have hTail : edges =
          (nodeEdges folder direct selected n).drop (k + 1) := by
        have hDrop : ((nodeEdges folder direct selected n).drop k).drop 1 =
            edges := by
          rw [← hEdges]
          rfl
        rw [List.drop_drop] at hDrop
        exact hDrop.symm
      unfold walkEdges at hOk
      split at hOk
      · cases hOk
      · next w₁ hHead =>
          have hStep := walkEdge_step hHead
          have hFits' := Fits.of_extends (walkEdges_extends hOk) hFits
          have hNext := hStep.traced hTraced hNode hHere hFits'
          rcases hStep.extends.nodes with ⟨more, hMore⟩
          exact ih hNext (getElem?_of_isPrefix hMore hNode) hTail hOk

theorem walkNode_traced
    {stack : List Nat}
    (hStack : w.stack = node :: stack)
    (hTraced : Traced folder direct selected (fun i _ => i ∉ w.stack) w)
    (hOk : walkNode folder direct node { w with stack := stack } = .ok w')
    (hFits : Fits selected w'.edges) :
    Traced folder direct selected (fun i _ => i ∉ w'.stack) w' := by
  unfold walkNode at hOk
  split at hOk
  · cases hOk
  · next edges shapes hDependencies =>
      rcases nodeDependencies_cases hDependencies with
        ⟨n, hNode, hEdges, hShapes⟩
      dsimp only at hNode hEdges
      rw [hTraced.current] at hEdges
      have hStart : Traced folder direct selected
          (through { w with stack := stack, shapes := shapes } node 0)
          { w with stack := stack, shapes := shapes } := by
        refine ⟨hTraced.current, ?_, hTraced.node, hTraced.edge,
          hTraced.loser, ?_⟩
        · rintro i j n' edge hNode' hEdge' ⟨hOff, hNot⟩
          apply hTraced.noted i j n' edge hNode' hEdge'
          rw [hStack]
          intro hMem
          rcases List.mem_cons.1 hMem with hIs | hLater
          · exact absurd (hNot hIs) (Nat.not_lt_zero j)
          · exact hOff hLater
        · intro i n' id version hNode' hOff hId hVersion hShape
          dsimp only at hNode' hOff ⊢
          rw [hShapes]
          by_cases hIs : i = node
          · rw [hIs, hNode] at hNode'
            cases hNode'
            dsimp only
            rw [hTraced.current]
            exact noteShape_notes hId hVersion hShape
          · apply noteShape_keeps
            apply hTraced.shape i n' id version hNode' _ hId hVersion
              hShape
            rw [hStack]
            intro hMem
            rcases List.mem_cons.1 hMem with hHere | hLater
            · exact hIs hHere
            · exact hOff hLater
      exact walkEdges_traced hStart hNode hEdges hOk hFits

/- A walk whose bounds fit what it started from is traced by it. -/
theorem walkLoop_traced
    (hTraced : Traced folder direct selected (fun i _ => i ∉ w.stack) w)
    (hOk : walkLoop folder direct fuel w = .ok w')
    (hFits : Fits selected w'.edges) :
    Traced folder direct selected (fun _ _ => True) w' := by
  induction fuel generalizing w with
  | zero =>
      cases hOk
  | succ fuel ih =>
      unfold walkLoop at hOk
      split at hOk
      · next hStack =>
          cases hOk
          refine ⟨hTraced.current, ?_, hTraced.node, hTraced.edge,
            hTraced.loser, hTraced.shape⟩
          intro i k n edge hNode hEdge _
          apply hTraced.noted i k n edge hNode hEdge
          rw [hStack]
          exact List.not_mem_nil
      · next node stack hStack =>
          split at hOk
          · cases hOk
          · next w₁ hNode =>
              have hFits' := Fits.of_extends (walkLoop_extends hOk) hFits
              exact ih (walkNode_traced hStack hTraced hNode hFits') hOk

theorem startWalk_traced :
    Traced folder direct selected
      (fun i _ => i ∉ (startWalk selected).stack)
      (startWalk selected) := by
  have hOn : ∀ (i : Nat) (n : Node),
      (startWalk selected).nodes[i]? = some n →
      i ∈ (startWalk selected).stack := by
    intro i n hNode
    rcases List.getElem?_eq_some_iff.1 hNode with ⟨hLt, -⟩
    rw [Nat.lt_one_iff.1 hLt]
    exact List.mem_singleton.2 rfl
  refine ⟨rfl, ?_, ?_, ?_, List.forall_mem_nil _, ?_⟩
  · intro i k n edge hNode _ hOff
    exact absurd (hOn i n hNode) hOff
  · intro j n hNode hZero
    rcases List.getElem?_eq_some_iff.1 hNode with ⟨hLt, -⟩
    exact absurd (Nat.lt_one_iff.1 hLt) hZero
  · intro id ranges hGet
    cases hGet
  · intro i n id version hNode hOff
    exact absurd (hOn i n hNode) hOff

end Traces

------------------------------------------------------------
-- Settled Walks
------------------------------------------------------------

/- The end of a walk. -/
structure Ended
    (folder : Folder E)
    (direct : List DirectPackageRequirement)
    (before : Versions)
    (w : Walking)
    (selected : Versions) :
    Prop where
  sound : Sound w
  stack : w.stack = []
  run : walkLoop folder direct (MAX_NODES + 1) (startWalk before) = .ok w
  selects : Selects w.edges selected

/- The end of a walk that selects what it started from. -/
structure Settled
    (folder : Folder E)
    (direct : List DirectPackageRequirement)
    (before : Versions)
    (w : Walking)
    (selected : Versions) :
    Prop where
  ended : Ended folder direct before w selected
  traced : Traced folder direct before (fun _ _ => True) w
  same : ∀ id version, selected.get id = some version →
    ∃ version', before.get id = some version' ∧
      version.eq version' = true

section Settled

variable {folder : Folder E} {direct : List DirectPackageRequirement}
variable {before : Versions}

theorem walk_ended :
    Yields
      (fun result => ∃ w, result = endWalk w result.selected ∧
        Ended folder direct before w result.selected)
      (walk folder direct before) := by
  have hStart : unexpanded (startWalk before) < MAX_NODES + 1 := by
    unfold unexpanded startWalk MAX_NODES
    dsimp only
    rw [List.length_singleton, List.length_singleton]
    omega
  have hLoop : Yields (fun w => Sound w ∧ w.stack = [])
      (walkLoop folder direct (MAX_NODES + 1) (startWalk before)) :=
    walkLoop_sound (startWalk_sound before) hStart
  unfold walk
  cases hRun : walkLoop folder direct (MAX_NODES + 1)
      (startWalk before) with
  | error stop =>
      rw [hRun] at hLoop
      cases stop with
      | Decline why =>
          trivial
      | Fault fault =>
          exact hLoop
  | ok w =>
      rw [hRun] at hLoop
      have hEnd : Sound w ∧ w.stack = [] := hLoop
      rcases selectVersions_selects (E := E) hEnd.1.bounds with
        ⟨selected, hSelected, hSelects⟩
      dsimp only
      rw [hSelected]
      exact ⟨w, rfl, hEnd.1, hEnd.2, hRun, hSelects⟩

theorem le_of_eq_version
    {u v w : NuGetVersion}
    (hLe : u.Le v)
    (hEq : v.eq w = true) :
    u.Le w := by
  have hCmp : v.cmp w = .eq := beq_iff_eq.1 hEq
  apply hLe.trans
  unfold NuGetVersion.Le
  rw [hCmp]
  rfl

/- A walk that selects what it started from is settled. -/
theorem Ended.settled
    {w : Walking}
    {selected : Versions}
    (hEnded : Ended folder direct before w selected)
    (hSame : selected.eqBy NuGetVersion.eq before = true) :
    Settled folder direct before w selected := by
  have hFits : Fits before w.edges := by
    intro id ranges hGet
    rcases hEnded.selects.greatest id ranges hGet with
      ⟨version, hVersion, hGreatest⟩
    rcases SortedMap.get_of_eqBy hSame hVersion with
      ⟨version', hVersion', hEq⟩
    refine ⟨version', hVersion', ?_⟩
    intro range hMem bound hBound
    exact le_of_eq_version (hGreatest.upper range hMem bound hBound) hEq
  refine ⟨hEnded, walkLoop_traced startWalk_traced hEnded.run hFits, ?_⟩
  intro id version hVersion
  exact SortedMap.get_of_eqBy hSame hVersion

end Settled

end NuGet

end Borzoi
