import Borzoi.NuGet.Resolver
import Borzoi.NuGet.VersionOrder

/-
  Walks do not fault.

  The nodes of a walk form a tree in which a parent comes before its
  children, every edge that survives has a lower bound, and the node
  bound ends the loop.
-/

namespace Borzoi

namespace NuGet

open Traversal

variable {E : Type}

/- The outcome is a decline, or a result with the property. -/
def Yields
    {α : Type}
    (P : α → Prop)
    (outcome : Outcome E α) :
    Prop :=
  match outcome with
  | .ok a => P a
  | .error (.Decline _) => True
  | .error (.Fault _) => False

namespace Yields

variable {α β : Type} {P Q : α → Prop} {outcome : Outcome E α}

theorem decline
    {why : ResolveDecline E} :
    Yields P (NuGet.decline why : Outcome E α) :=
  trivial

theorem imp
    (hYields : Yields P outcome)
    (hImp : ∀ a, P a → Q a) :
    Yields Q outcome := by
  cases outcome with
  | ok a =>
      exact hImp a hYields
  | error stop =>
      cases stop with
      | Decline why =>
          trivial
      | Fault fault =>
          exact hYields

theorem bind
    {R : β → Prop}
    {next : α → Outcome E β}
    (hYields : Yields P outcome)
    (hNext : ∀ a, outcome = .ok a → P a → Yields R (next a)) :
    Yields R (outcome >>= next) := by
  cases outcome with
  | ok a =>
      exact hNext a rfl hYields
  | error stop =>
      cases stop with
      | Decline why =>
          trivial
      | Fault fault =>
          exact hYields

theorem forEach
    {xs : List α}
    {body : α → Outcome E Unit}
    (hBody : ∀ x ∈ xs, Yields (fun _ => True) (body x)) :
    Yields (fun _ => True) (NuGet.forEach body xs) := by
  induction xs with
  | nil =>
      trivial
  | cons x xs ih =>
      have hHead := hBody x List.mem_cons_self
      unfold NuGet.forEach
      cases hCase : body x with
      | error stop =>
          rw [hCase] at hHead
          exact hHead
      | ok u =>
          exact ih fun y hMem => hBody y (List.mem_cons_of_mem _ hMem)

theorem mapEach
    {R : β → Prop}
    {xs : List α}
    {body : α → Outcome E β}
    (hBody : ∀ x ∈ xs, Yields R (body x)) :
    Yields (fun ys => ∀ y ∈ ys, R y) (NuGet.mapEach body xs) := by
  induction xs with
  | nil =>
      exact List.forall_mem_nil _
  | cons x xs ih =>
      have hHead := hBody x List.mem_cons_self
      have hTail := ih fun y hMem => hBody y (List.mem_cons_of_mem _ hMem)
      unfold NuGet.mapEach
      cases hCase : body x with
      | error stop =>
          rw [hCase] at hHead
          cases stop with
          | Decline why =>
              trivial
          | Fault fault =>
              exact hHead
      | ok y =>
          rw [hCase] at hHead
          cases hRest : NuGet.mapEach body xs with
          | error stop =>
              rw [hRest] at hTail
              cases stop with
              | Decline why =>
                  trivial
              | Fault fault =>
                  exact hTail
          | ok ys =>
              rw [hRest] at hTail
              exact List.forall_mem_cons.2 ⟨hHead, hTail⟩

end Yields

theorem forEach_ok
    {α : Type}
    {xs : List α}
    {body : α → Outcome E Unit}
    (hOk : forEach body xs = .ok ()) :
    ∀ x ∈ xs, body x = .ok () := by
  induction xs with
  | nil =>
      exact List.forall_mem_nil _
  | cons x xs ih =>
      unfold forEach at hOk
      split at hOk
      · cases hOk
      · next hHead =>
          exact List.forall_mem_cons.2 ⟨hHead, ih hOk⟩

theorem mapEach_ok
    {α β : Type}
    {xs : List α}
    {ys : List β}
    {body : α → Outcome E β}
    (hOk : mapEach body xs = .ok ys) :
    xs.length = ys.length ∧
      ∀ (i : Nat) (x : α), xs[i]? = some x →
        ∃ y, ys[i]? = some y ∧ body x = .ok y := by
  induction xs generalizing ys with
  | nil =>
      cases hOk
      refine ⟨rfl, ?_⟩
      intro i x hGet
      cases hGet
  | cons x xs ih =>
      unfold mapEach at hOk
      split at hOk
      · cases hOk
      · next y hHead =>
          split at hOk
          · cases hOk
          · next ys' hTail =>
              cases hOk
              rcases ih hTail with ⟨hLength, hAll⟩
              refine ⟨congrArg (· + 1) hLength, ?_⟩
              intro i z hGet
              cases i with
              | zero =>
                  cases hGet
                  exact ⟨y, rfl, hHead⟩
              | succ i =>
                  exact hAll i z hGet

/- The lower bound that the resolver takes, if it takes one. -/
def VersionRange.exactBound
    (range : VersionRange) :
    Option NuGetVersion :=
  if range.isFloating then
    none
  else
    match range.min with
    | none => none
    | some version =>
        if range.minInclusive && range.satisfies version then
          some version
        else
          none

theorem exactLowerBound_toOption
    (id : PackageId)
    (range : VersionRange) :
    (exactLowerBound (E := E) id range).toOption = range.exactBound := by
  unfold exactLowerBound VersionRange.exactBound
  split
  · rfl
  · cases range.min with
    | none =>
        rfl
    | some version =>
        cases range.minInclusive with
        | false =>
            rfl
        | true =>
            dsimp only
            cases range.satisfies version with
            | false =>
                rfl
            | true =>
                rfl

theorem exactBound_of_ok
    {id : PackageId}
    {range : VersionRange}
    {version : NuGetVersion}
    (hOk : exactLowerBound (E := E) id range = .ok version) :
    range.exactBound = some version := by
  rw [← exactLowerBound_toOption (E := E) id range, hOk]
  rfl

theorem expectLowerBound_eq
    (id : PackageId)
    (range : VersionRange) :
    expectLowerBound (E := E) id range = expect range.exactBound := by
  unfold expectLowerBound
  rw [exactLowerBound_toOption]

/- The first node is the root, and every other has a package and a parent
   before it. -/
structure Tree
    (nodes : List Node) :
    Prop where
  root : nodes[0]? = some ⟨none, none, 0⟩
  inner : ∀ i node, nodes[i]? = some node → i ≠ 0 →
    ∃ id p, node.id = some id ∧ node.parent = some p ∧ p < i

namespace Tree

variable {nodes : List Node}

theorem length_pos
    (hTree : Tree nodes) :
    0 < nodes.length := by
  rcases List.getElem?_eq_some_iff.1 hTree.root with ⟨hLt, -⟩
  exact hLt

theorem parent_lt
    {i p : Nat}
    {node : Node}
    (hTree : Tree nodes)
    (hGet : nodes[i]? = some node)
    (hParent : node.parent = some p) :
    p < i := by
  by_cases hZero : i = 0
  · rw [hZero, hTree.root] at hGet
    cases hGet
    cases hParent
  · rcases hTree.inner i node hGet hZero with ⟨-, q, -, hQ, hBefore⟩
    rw [hParent] at hQ
    cases hQ
    exact hBefore

/- A new node below an old one. -/
theorem push
    {id : PackageId}
    {p k : Nat}
    (hTree : Tree nodes)
    (hParent : p < nodes.length) :
    Tree (nodes ++ [⟨some id, some p, k⟩]) := by
  constructor
  · rw [List.getElem?_append_left hTree.length_pos]
    exact hTree.root
  · intro i node hGet hNe
    rcases Nat.lt_or_ge i nodes.length with hOld | hNew
    · rw [List.getElem?_append_left hOld] at hGet
      exact hTree.inner i node hGet hNe
    · rw [List.getElem?_append_right hNew] at hGet
      rcases List.getElem?_eq_some_iff.1 hGet with ⟨hLt, hNode⟩
      rw [List.length_singleton] at hLt
      have hZero : i - nodes.length = 0 := by omega
      have hHere : node = ⟨some id, some p, k⟩ := by
        rw [← hNode]
        simp only [hZero, List.getElem_cons_zero]
      rw [hHere]
      exact ⟨id, p, rfl, rfl, by omega⟩

end Tree

section Classify

variable {folder : Folder E} {direct : List DirectPackageRequirement}
variable {nodes : List Node} {id : PackageId} {range : VersionRange}
variable {current : Versions}

theorem classifyAbove_total
    {fuel : Nat}
    {child : Node}
    {ancestor : Option Nat}
    (hTree : Tree nodes)
    (hAncestor : ∀ i, ancestor = some i → i < nodes.length ∧ i + 2 ≤ fuel)
    (hFuel : 0 < fuel) :
    ∃ verdict, classifyAbove folder direct nodes id range current fuel
      child ancestor = .ok verdict := by
  induction fuel generalizing child ancestor with
  | zero =>
      omega
  | succ fuel ih =>
      cases ancestor with
      | none =>
          exact ⟨.Acceptable, rfl⟩
      | some index =>
          rcases hAncestor index rfl with ⟨hLt, hBound⟩
          unfold classifyAbove
          rw [List.getElem?_eq_getElem hLt]
          dsimp only
          by_cases hCycle : nodes[index].id = some id
          · rw [if_pos hCycle]
            exact ⟨_, rfl⟩
          · rw [if_neg hCycle]
            split
            · exact ⟨_, rfl⟩
            · apply ih
              · intro p hParent
                have hBefore := hTree.parent_lt
                  (List.getElem?_eq_getElem hLt) hParent
                omega
              · omega

theorem classify_total
    {parent : Nat}
    (hTree : Tree nodes)
    (hParent : parent < nodes.length) :
    ∃ verdict, classify folder direct nodes parent id range current =
      .ok verdict := by
  unfold classify
  rw [List.getElem?_eq_getElem hParent]
  dsimp only
  by_cases hSelf : nodes[parent].id = some id
  · rw [if_pos hSelf]
    exact ⟨_, rfl⟩
  · rw [if_neg hSelf]
    apply classifyAbove_total hTree
    · intro i hUp
      have hBefore := hTree.parent_lt (List.getElem?_eq_getElem hParent)
        hUp
      omega
    · omega

theorem pathTo_total
    {fuel : Nat}
    {ancestor : Option Nat}
    {path : List PackageId}
    (hTree : Tree nodes)
    (hAncestor : ∀ i, ancestor = some i → i < nodes.length ∧ i + 2 ≤ fuel)
    (hFuel : 0 < fuel) :
    ∃ path', pathTo nodes fuel ancestor path = .ok path' := by
  induction fuel generalizing ancestor path with
  | zero =>
      omega
  | succ fuel ih =>
      cases ancestor with
      | none =>
          exact ⟨path, rfl⟩
      | some index =>
          rcases hAncestor index rfl with ⟨hLt, hBound⟩
          unfold pathTo
          rw [List.getElem?_eq_getElem hLt]
          dsimp only
          apply ih
          · intro p hParent
            have hBefore := hTree.parent_lt
              (List.getElem?_eq_getElem hLt) hParent
            omega
          · omega

theorem cyclePath_total
    {node : Nat}
    (hTree : Tree nodes)
    (hNode : node < nodes.length) :
    ∃ path, cyclePath nodes node id = .ok path := by
  have hPath : ∃ path, pathTo nodes (nodes.length + 1) (some node) [] =
      .ok path := by
    apply pathTo_total hTree
    · intro i hEq
      cases hEq
      omega
    · omega
  rcases hPath with ⟨path, hPath⟩
  unfold cyclePath
  rw [hPath]
  exact ⟨_, rfl⟩

end Classify

------------------------------------------------------------
-- Walks
------------------------------------------------------------

/- What holds between the steps of a walk. -/
structure Sound
    (w : Walking) :
    Prop where
  tree : Tree w.nodes
  known : ∀ (i : Nat) (node : Node) id, w.nodes[i]? = some node →
    node.id = some id → (w.current.get id).isSome ∧ (w.edges.get id).isSome
  stack : ∀ i ∈ w.stack, i < w.nodes.length
  small : w.nodes.length ≤ MAX_NODES
  bounds : ∀ id ranges, w.edges.get id = some ranges →
    ranges ≠ [] ∧ ∀ range ∈ ranges, range.exactBound.isSome
  survivors : w.surviving.length = w.nodes.length
  surviving : ∀ edges ∈ w.surviving, ∀ edge ∈ edges,
    edge.2.exactBound.isSome
  losers : ∀ loser ∈ w.losers, loser.parent < w.nodes.length
  downgrades : ∀ downgrade ∈ w.downgrades,
    downgrade.parent < w.nodes.length ∧
      downgrade.range.isFloating = false

/- The nodes that are left to expand. -/
def unexpanded
    (w : Walking) :
    Nat :=
  MAX_NODES - w.nodes.length + w.stack.length

section Walks

variable {folder : Folder E} {direct : List DirectPackageRequirement}
variable {w : Walking}

theorem raise_get
    {current : Versions}
    {id : PackageId}
    {lowerBound : NuGetVersion} :
    ∃ version, (raise current id lowerBound).get id = some version := by
  unfold raise
  cases hGet : current.get id with
  | none =>
      exact ⟨lowerBound, SortedMap.get_insert_self⟩
  | some existing =>
      dsimp only
      split
      · exact ⟨lowerBound, SortedMap.get_insert_self⟩
      · exact ⟨existing, hGet⟩

theorem raise_keeps
    {current : Versions}
    {id id' : PackageId}
    {lowerBound : NuGetVersion}
    (hSome : (current.get id').isSome) :
    ((raise current id lowerBound).get id').isSome := by
  by_cases hSame : id' = id
  · rw [hSame]
    rcases raise_get with ⟨version, hGet⟩
    rw [hGet]
    rfl
  · have hOther : (raise current id lowerBound).get id' =
        current.get id' := by
      unfold raise
      split
      · exact SortedMap.get_insert_of_ne hSame
      · split
        · exact SortedMap.get_insert_of_ne hSame
        · rfl
    rw [hOther]
    exact hSome

theorem siblingVerdict_downgraded
    {id : PackageId}
    {range : VersionRange}
    {taken index : Nat}
    {edges : List Edge}
    (hVerdict : siblingVerdict id range taken edges index =
      some .PotentiallyDowngraded) :
    range.isFloating = false := by
  induction edges generalizing index with
  | nil =>
      cases hVerdict
  | cons edge edges ih =>
      rcases edge with ⟨siblingId, siblingRange⟩
      unfold siblingVerdict at hVerdict
      split at hVerdict
      · exact ih hVerdict
      · split at hVerdict
        · exact ih hVerdict
        · split at hVerdict
          · cases hVerdict
          · next hFloat =>
              rw [Bool.not_eq_true, Bool.or_eq_false_iff] at hFloat
              exact hFloat.2

theorem classifyAbove_downgraded
    {nodes : List Node}
    {id : PackageId}
    {range : VersionRange}
    {current : Versions}
    {fuel : Nat}
    {child : Node}
    {ancestor : Option Nat}
    (hVerdict : classifyAbove folder direct nodes id range current fuel
      child ancestor = .ok .PotentiallyDowngraded) :
    range.isFloating = false := by
  induction fuel generalizing child ancestor with
  | zero =>
      cases hVerdict
  | succ fuel ih =>
      cases ancestor with
      | none =>
          cases hVerdict
      | some index =>
          unfold classifyAbove at hVerdict
          split at hVerdict
          · cases hVerdict
          · split at hVerdict
            · cases hVerdict
            · split at hVerdict
              · next hSibling =>
                  cases hVerdict
                  exact siblingVerdict_downgraded hSibling
              · exact ih hVerdict

theorem classify_downgraded
    {nodes : List Node}
    {parent : Nat}
    {id : PackageId}
    {range : VersionRange}
    {current : Versions}
    (hVerdict : classify folder direct nodes parent id range current =
      .ok .PotentiallyDowngraded) :
    range.isFloating = false := by
  unfold classify at hVerdict
  split at hVerdict
  · cases hVerdict
  · split at hVerdict
    · cases hVerdict
    · exact classifyAbove_downgraded hVerdict

/- The edges of a package after one more. -/
theorem edges_push
    {edges : EdgeMap}
    {id id' : PackageId}
    {range : VersionRange}
    {ranges : List VersionRange}
    (hGet : (edges.insert id ((edges.get id).getD [] ++ [range])).get id' =
      some ranges) :
    (id' = id ∧ ranges = (edges.get id).getD [] ++ [range]) ∨
      edges.get id' = some ranges := by
  by_cases hSame : id' = id
  · rw [hSame, SortedMap.get_insert_self] at hGet
    exact Or.inl ⟨hSame, (Option.some.inj hGet).symm⟩
  · rw [SortedMap.get_insert_of_ne hSame] at hGet
    exact Or.inr hGet

theorem edges_push_isSome
    {edges : EdgeMap}
    {id id' : PackageId}
    {ranges : List VersionRange}
    (hSome : (edges.get id').isSome) :
    ((edges.insert id ranges).get id').isSome := by
  by_cases hSame : id' = id
  · rw [hSame, SortedMap.get_insert_self]
    rfl
  · rw [SortedMap.get_insert_of_ne hSame]
    exact hSome

/- What one dependency leaves. -/
structure Continues
    (w w' : Walking) :
    Prop where
  sound : Sound w'
  more : w.nodes.length ≤ w'.nodes.length
  left : unexpanded w' = unexpanded w

theorem Continues.refl
    (hSound : Sound w) :
    Continues w w :=
  ⟨hSound, Nat.le_refl _, rfl⟩

theorem Continues.trans
    {w' w'' : Walking}
    (hFirst : Continues w w')
    (hSecond : Continues w' w'') :
    Continues w w'' :=
  ⟨hSecond.sound, Nat.le_trans hFirst.more hSecond.more,
    hSecond.left.trans hFirst.left⟩

section

variable (hSound : Sound w)

include hSound

/- The state after an edge that survives, before it is expanded. -/
theorem Sound.survive
    {node : Nat}
    {id : PackageId}
    {range : VersionRange}
    {lowerBound : NuGetVersion}
    (hBound : range.exactBound = some lowerBound) :
    Sound (surviveEdge node id range lowerBound w) := by
  constructor
  · exact hSound.tree
  · intro i n id' hGet hId
    rcases hSound.known i n id' hGet hId with ⟨hCurrent, hEdges⟩
    exact ⟨raise_keeps hCurrent, edges_push_isSome hEdges⟩
  · exact hSound.stack
  · exact hSound.small
  · intro id' ranges hGet
    rcases edges_push hGet with ⟨-, hNew⟩ | hOld
    · rw [hNew]
      refine ⟨List.append_ne_nil_of_right_ne_nil _
        (List.cons_ne_nil _ _), ?_⟩
      intro range' hMem
      rcases List.mem_append.1 hMem with hBefore | hHere
      · cases hCase : w.edges.get id with
        | none =>
            rw [hCase] at hBefore
            cases hBefore
        | some before =>
            rw [hCase] at hBefore
            exact (hSound.bounds id before hCase).2 range' hBefore
      · rw [List.mem_singleton.1 hHere, hBound]
        rfl
    · exact hSound.bounds id' ranges hOld
  · unfold surviveEdge
    dsimp only
    rw [List.length_modify]
    exact hSound.survivors
  · intro edges hEdges edge hMem
    rcases List.getElem?_of_mem hEdges with ⟨i, hGet⟩
    unfold surviveEdge at hGet
    dsimp only at hGet
    rw [List.getElem?_modify] at hGet
    cases hCase : w.surviving[i]? with
    | none =>
        rw [hCase] at hGet
        cases hGet
    | some before =>
        rw [hCase] at hGet
        have hBefore := hSound.surviving before
          (List.mem_of_getElem? hCase)
        have hEq : (if node = i then before ++ [(id, range)] else before) =
            edges := Option.some.inj hGet
        by_cases hHere : node = i
        · rw [if_pos hHere] at hEq
          rw [← hEq] at hMem
          rcases List.mem_append.1 hMem with hOld | hNew
          · exact hBefore edge hOld
          · rw [List.mem_singleton.1 hNew]
            dsimp only
            rw [hBound]
            rfl
        · rw [if_neg hHere] at hEq
          rw [← hEq] at hMem
          exact hBefore edge hMem
  · exact hSound.losers
  · exact hSound.downgrades

/- The state after a new node. -/
theorem Sound.expand
    {node depIndex : Nat}
    {id : PackageId}
    (hNode : node < w.nodes.length)
    (hRoom : w.nodes.length < MAX_NODES)
    (hKnown : (w.current.get id).isSome ∧ (w.edges.get id).isSome) :
    Sound (expandEdge node depIndex id w) := by
  have hLength : (expandEdge node depIndex id w).nodes.length =
      w.nodes.length + 1 := List.length_append
  constructor
  · exact hSound.tree.push hNode
  · intro i n id' hGet hId
    rcases Nat.lt_or_ge i w.nodes.length with hOld | hNew
    · have hBefore : w.nodes[i]? = some n := by
        rw [← hGet]
        exact (List.getElem?_append_left hOld).symm
      exact hSound.known i n id' hBefore hId
    · have hLast : [(⟨some id, some node, depIndex⟩ : Node)][
          i - w.nodes.length]? = some n := by
        rw [← hGet]
        exact (List.getElem?_append_right hNew).symm
      rw [List.mem_singleton.1 (List.mem_of_getElem? hLast)] at hId
      cases hId
      exact hKnown
  · intro i hMem
    rw [hLength]
    rcases List.mem_cons.1 hMem with hNew | hOld
    · omega
    · have hLt := hSound.stack i hOld
      omega
  · rw [hLength]
    exact hRoom
  · exact hSound.bounds
  · rw [hLength, ← hSound.survivors]
    exact List.length_append
  · intro edges hEdges edge hMem
    rcases List.mem_append.1 hEdges with hOld | hNew
    · exact hSound.surviving edges hOld edge hMem
    · rw [List.mem_singleton.1 hNew] at hMem
      cases hMem
  · intro loser hMem
    have hLt := hSound.losers loser hMem
    rw [hLength]
    omega
  · intro downgrade hMem
    rcases hSound.downgrades downgrade hMem with ⟨hLt, hFloat⟩
    refine ⟨?_, hFloat⟩
    rw [hLength]
    omega

theorem acceptEdge_continues
    {node depIndex : Nat}
    {id : PackageId}
    {range : VersionRange}
    (hNode : node < w.nodes.length) :
    Yields (Continues w)
      (acceptEdge (E := E) node depIndex id range w) := by
  unfold acceptEdge
  split
  · exact Yields.decline
  · next lowerBound hOk =>
      have hBound := exactBound_of_ok hOk
      have hSurvivors := hSound.survivors
      rw [if_neg (by omega)]
      have hSurvive : Sound (surviveEdge node id range lowerBound w) :=
        hSound.survive hBound
      dsimp only
      split
      · refine ⟨⟨hSurvive.tree, hSurvive.known, hSurvive.stack,
          hSurvive.small, hSurvive.bounds, hSurvive.survivors,
          hSurvive.surviving, ?_, hSurvive.downgrades⟩,
          Nat.le_refl _, rfl⟩
        intro loser hMem
        rcases List.mem_append.1 hMem with hOld | hNew
        · exact hSound.losers loser hOld
        · rw [List.mem_singleton.1 hNew]
          exact hNode
      · split
        · exact Yields.decline
        · next hRoom =>
            have hRoom' : w.nodes.length < MAX_NODES := Nat.lt_of_not_le hRoom
            refine ⟨hSurvive.expand hNode hRoom' ?_, ?_, ?_⟩
            · constructor
              · rcases raise_get with ⟨version, hGet⟩
                exact Option.isSome_iff_exists.2 ⟨version, hGet⟩
              · exact Option.isSome_iff_exists.2
                  ⟨_, SortedMap.get_insert_self⟩
            · unfold expandEdge surviveEdge
              dsimp only
              rw [List.length_append]
              exact Nat.le_add_right _ _
            · unfold unexpanded expandEdge surviveEdge
              dsimp only
              rw [List.length_append, List.length_singleton,
                List.length_cons]
              omega

theorem walkEdge_continues
    {node depIndex : Nat}
    {edge : Edge}
    (hNode : node < w.nodes.length) :
    Yields (Continues w)
      (walkEdge folder direct node depIndex edge w) := by
  rcases edge with ⟨id, range⟩
  have hTotal : ∃ verdict, classify folder direct w.nodes node id range
      w.current = .ok verdict := classify_total hSound.tree hNode
  rcases hTotal with ⟨verdict, hVerdict⟩
  unfold walkEdge
  dsimp only
  rw [hVerdict]
  cases verdict with
  | Acceptable =>
      exact acceptEdge_continues hSound hNode
  | Eclipsed =>
      exact Continues.refl hSound
  | FloatCompared =>
      exact ⟨⟨hSound.tree, hSound.known, hSound.stack, hSound.small,
        hSound.bounds, hSound.survivors, hSound.surviving, hSound.losers,
        hSound.downgrades⟩, Nat.le_refl _, rfl⟩
  | Cycle =>
      dsimp only
      split
      · exact Continues.refl hSound
      · have hTotal : ∃ path, cyclePath w.nodes node id = .ok path :=
          cyclePath_total hSound.tree hNode
        rcases hTotal with ⟨path, hPath⟩
        rw [hPath]
        exact ⟨⟨hSound.tree, hSound.known, hSound.stack, hSound.small,
          hSound.bounds, hSound.survivors, hSound.surviving,
          hSound.losers, hSound.downgrades⟩, Nat.le_refl _, rfl⟩
  | PotentiallyDowngraded =>
      refine ⟨⟨hSound.tree, hSound.known, hSound.stack, hSound.small,
        hSound.bounds, hSound.survivors, hSound.surviving, hSound.losers,
        ?_⟩, Nat.le_refl _, rfl⟩
      intro downgrade hMem
      rcases List.mem_append.1 hMem with hOld | hNew
      · exact hSound.downgrades downgrade hOld
      · rw [List.mem_singleton.1 hNew]
        exact ⟨hNode, classify_downgraded hVerdict⟩

theorem walkEdges_continues
    {node depIndex : Nat}
    {edges : List Edge}
    (hNode : node < w.nodes.length) :
    Yields (Continues w)
      (walkEdges folder direct node edges depIndex w) := by
  induction edges generalizing depIndex w with
  | nil =>
      exact Continues.refl hSound
  | cons edge edges ih =>
      have hHead : Yields (Continues w)
          (walkEdge folder direct node depIndex edge w) :=
        walkEdge_continues hSound hNode
      unfold walkEdges
      cases hCase : walkEdge folder direct node depIndex edge w with
      | error stop =>
          rw [hCase] at hHead
          cases stop with
          | Decline why =>
              trivial
          | Fault fault =>
              exact hHead
      | ok w' =>
          rw [hCase] at hHead
          have hContinues : Continues w w' := hHead
          have hRest : Yields (Continues w')
              (walkEdges folder direct node edges (depIndex + 1) w') :=
            ih hContinues.sound (Nat.lt_of_lt_of_le hNode hContinues.more)
          exact hRest.imp fun w'' hNext => hContinues.trans hNext

theorem nodeDependencies_yields
    {node : Nat}
    (hNode : node < w.nodes.length) :
    ∃ edges shapes, nodeDependencies folder direct node w =
      .ok (edges, shapes) := by
  unfold nodeDependencies
  rw [List.getElem?_eq_getElem hNode]
  dsimp only
  split
  · exact ⟨_, _, rfl⟩
  · next id hId =>
      have hKnown := (hSound.known node _ id
        (List.getElem?_eq_getElem hNode) hId).1
      rcases Option.isSome_iff_exists.1 hKnown with ⟨version, hVersion⟩
      rw [hVersion]
      dsimp only
      split
      · exact ⟨_, _, rfl⟩
      · split
        · exact ⟨_, _, rfl⟩
        · exact ⟨_, _, rfl⟩

theorem walkNode_continues
    {node : Nat}
    (hNode : node < w.nodes.length) :
    Yields (Continues w) (walkNode folder direct node w) := by
  have hTotal : ∃ edges shapes, nodeDependencies folder direct node w =
      .ok (edges, shapes) := nodeDependencies_yields hSound hNode
  rcases hTotal with ⟨edges, shapes, hDependencies⟩
  have hShapes : Sound { w with shapes := shapes } :=
    ⟨hSound.tree, hSound.known, hSound.stack, hSound.small, hSound.bounds,
      hSound.survivors, hSound.surviving, hSound.losers,
      hSound.downgrades⟩
  have hEdges : Yields (Continues { w with shapes := shapes })
      (walkEdges folder direct node edges 0 { w with shapes := shapes }) :=
    walkEdges_continues hShapes hNode
  unfold walkNode
  rw [hDependencies]
  exact hEdges.imp fun w' hContinues =>
    ⟨hContinues.sound, hContinues.more, hContinues.left⟩

/- The loop ends with every node expanded. -/
theorem walkLoop_sound
    {fuel : Nat}
    (hFuel : unexpanded w < fuel) :
    Yields (fun w' => Sound w' ∧ w'.stack = [])
      (walkLoop folder direct fuel w) := by
  induction fuel generalizing w with
  | zero =>
      omega
  | succ fuel ih =>
      unfold walkLoop
      cases hStack : w.stack with
      | nil =>
          exact ⟨hSound, hStack⟩
      | cons node stack =>
          have hNode : node < w.nodes.length := by
            apply hSound.stack
            rw [hStack]
            exact List.mem_cons_self
          have hPopped : Sound { w with stack := stack } := by
            refine ⟨hSound.tree, hSound.known, ?_, hSound.small,
              hSound.bounds, hSound.survivors, hSound.surviving,
              hSound.losers, hSound.downgrades⟩
            intro i hMem
            apply hSound.stack
            rw [hStack]
            exact List.mem_cons_of_mem _ hMem
          have hLeft : unexpanded { w with stack := stack } + 1 =
              unexpanded w := by
            unfold unexpanded
            rw [hStack, List.length_cons]
            rfl
          have hStep : Yields (Continues { w with stack := stack })
              (walkNode folder direct node { w with stack := stack }) :=
            walkNode_continues hPopped hNode
          dsimp only
          cases hCase : walkNode folder direct node
              { w with stack := stack } with
          | error stop =>
              rw [hCase] at hStep
              cases stop with
              | Decline why =>
                  trivial
              | Fault fault =>
                  exact hStep
          | ok w' =>
              rw [hCase] at hStep
              have hContinues : Continues { w with stack := stack } w' :=
                hStep
              apply ih hContinues.sound
              rw [hContinues.left]
              omega

end

theorem startWalk_sound
    (selected : Versions) :
    Sound (startWalk selected) := by
  constructor
  · constructor
    · rfl
    · intro i node hGet hNe
      rcases List.getElem?_eq_some_iff.1 hGet with ⟨hLt, -⟩
      exact absurd (Nat.lt_one_iff.1 hLt) hNe
  · intro i node id hGet hId
    rw [List.mem_singleton.1 (List.mem_of_getElem? hGet)] at hId
    cases hId
  · intro i hMem
    rw [List.mem_singleton.1 hMem]
    exact Nat.one_pos
  · unfold startWalk MAX_NODES
    dsimp only
    rw [List.length_singleton]
    omega
  · intro id ranges hGet
    cases hGet
  · rfl
  · intro edges hEdges edge hMem
    rw [List.mem_singleton.1 hEdges] at hMem
    cases hMem
  · exact List.forall_mem_nil _
  · exact List.forall_mem_nil _

------------------------------------------------------------
-- Selection
------------------------------------------------------------

/- The order of versions. -/
def NuGetVersion.Le
    (v w : NuGetVersion) :
    Prop :=
  (v.cmp w).isLE = true

theorem NuGetVersion.Le.refl
    (v : NuGetVersion) :
    v.Le v := by
  unfold NuGetVersion.Le
  have hSelf : v.cmp v = .eq := Std.ReflCmp.compare_self
  rw [hSelf]
  rfl

theorem NuGetVersion.Le.trans
    {u v w : NuGetVersion}
    (hFirst : u.Le v)
    (hSecond : v.Le w) :
    u.Le w :=
  Std.TransCmp.isLE_trans hFirst hSecond

theorem NuGetVersion.le_iff
    {v w : NuGetVersion} :
    v.Le w ↔ v.cmp w ≠ .gt := by
  unfold NuGetVersion.Le
  cases v.cmp w with
  | lt =>
      decide
  | eq =>
      decide
  | gt =>
      decide

theorem NuGetVersion.le_of_gt
    {v w : NuGetVersion}
    (hGt : v.cmp w = .gt) :
    w.Le v := by
  have hLt : w.cmp v = .lt := Std.OrientedCmp.gt_iff_lt.1 hGt
  unfold NuGetVersion.Le
  rw [hLt]
  rfl

/- The version is the greatest of the lower bounds of the ranges. -/
structure IsGreatest
    (ranges : List VersionRange)
    (version : NuGetVersion) :
    Prop where
  upper : ∀ range ∈ ranges, ∀ bound, range.exactBound = some bound →
    bound.Le version
  attained : ∃ range ∈ ranges, range.exactBound = some version

/- The selection has the greatest bound of every package. -/
structure Selects
    (edges : EdgeMap)
    (selected : Versions) :
    Prop where
  greatest : ∀ id ranges, edges.get id = some ranges →
    ∃ version, selected.get id = some version ∧
      IsGreatest ranges version
  only : ∀ id, (selected.get id).isSome → (edges.get id).isSome

theorem maxVersion_fold
    {versions : List NuGetVersion}
    {best : NuGetVersion} :
    ∃ version,
      versions.foldl
        (fun best version =>
          match best with
          | none => some version
          | some b => if b.cmp version = .gt then some b else some version)
        (some best) = some version ∧
      version ∈ best :: versions ∧
      ∀ v ∈ best :: versions, v.Le version := by
  induction versions generalizing best with
  | nil =>
      refine ⟨best, rfl, List.mem_singleton.2 rfl, ?_⟩
      intro v hMem
      rw [List.mem_singleton.1 hMem]
      exact NuGetVersion.Le.refl best
  | cons next versions ih =>
      rw [List.foldl_cons]
      dsimp only
      by_cases hGt : best.cmp next = .gt
      · rw [if_pos hGt]
        rcases @ih best with ⟨version, hFold, hMem, hUpper⟩
        refine ⟨version, hFold, ?_, ?_⟩
        · rcases List.mem_cons.1 hMem with hBest | hLater
          · exact List.mem_cons.2 (Or.inl hBest)
          · exact List.mem_cons_of_mem _ (List.mem_cons_of_mem _ hLater)
        · intro v hV
          rcases List.mem_cons.1 hV with hBest | hLater
          · exact hUpper v (List.mem_cons.2 (Or.inl hBest))
          · rcases List.mem_cons.1 hLater with hNext | hLater
            · rw [hNext]
              exact (NuGetVersion.le_of_gt hGt).trans
                (hUpper best List.mem_cons_self)
            · exact hUpper v (List.mem_cons_of_mem _ hLater)
      · rw [if_neg hGt]
        rcases @ih next with ⟨version, hFold, hMem, hUpper⟩
        refine ⟨version, hFold, List.mem_cons_of_mem _ hMem, ?_⟩
        intro v hV
        rcases List.mem_cons.1 hV with hBest | hLater
        · rw [hBest]
          exact (NuGetVersion.le_iff.2 hGt).trans
            (hUpper next List.mem_cons_self)
        · exact hUpper v hLater

theorem maxVersion_greatest
    {versions : List NuGetVersion}
    (hSome : versions ≠ []) :
    ∃ version, maxVersion versions = some version ∧
      version ∈ versions ∧ ∀ v ∈ versions, v.Le version := by
  cases versions with
  | nil =>
      exact absurd rfl hSome
  | cons first rest =>
      unfold maxVersion
      exact maxVersion_fold

theorem lowerBounds_ok
    (id : PackageId)
    {ranges : List VersionRange}
    (hBounds : ∀ range ∈ ranges, range.exactBound.isSome) :
    ∃ versions,
      mapEach (fun range => expectLowerBound (E := E) id range) ranges =
        .ok versions ∧
      versions.map some = ranges.map VersionRange.exactBound := by
  induction ranges with
  | nil =>
      exact ⟨[], rfl, rfl⟩
  | cons range rest ih =>
      rcases Option.isSome_iff_exists.1
        (hBounds range List.mem_cons_self) with ⟨bound, hBound⟩
      rcases ih fun r hMem => hBounds r (List.mem_cons_of_mem _ hMem) with
        ⟨versions, hRest, hMap⟩
      refine ⟨bound :: versions, ?_, ?_⟩
      · unfold mapEach
        rw [expectLowerBound_eq, hBound, hRest]
        rfl
      · rw [List.map_cons, List.map_cons, hMap, hBound]

theorem greatestLowerBound_greatest
    (id : PackageId)
    {ranges : List VersionRange}
    (hSome : ranges ≠ [])
    (hBounds : ∀ range ∈ ranges, range.exactBound.isSome) :
    ∃ version,
      greatestLowerBound (E := E) id ranges = .ok version ∧
        IsGreatest ranges version := by
  rcases lowerBounds_ok (E := E) id hBounds with ⟨versions, hVersions, hMap⟩
  have hNonempty : versions ≠ [] := by
    rintro rfl
    rw [List.map_nil] at hMap
    exact hSome (List.map_eq_nil_iff.1 hMap.symm)
  rcases maxVersion_greatest hNonempty with ⟨version, hMax, hMem, hUpper⟩
  refine ⟨version, ?_, ?_, ?_⟩
  · unfold greatestLowerBound
    rw [hVersions]
    dsimp only
    rw [hMax]
    rfl
  · intro range hRange bound hBound
    apply hUpper
    have hIn : some bound ∈ versions.map some := by
      rw [hMap, ← hBound]
      exact List.mem_map_of_mem hRange
    rcases List.mem_map.1 hIn with ⟨b, hB, hEq⟩
    cases hEq
    exact hB
  · have hIn : some version ∈ ranges.map VersionRange.exactBound := by
      rw [← hMap]
      exact List.mem_map_of_mem hMem
    rcases List.mem_map.1 hIn with ⟨range, hRange, hEq⟩
    exact ⟨range, hRange, hEq⟩

theorem selectVersions_entries
    {entries : List (PackageId × List VersionRange)}
    (selected : Versions)
    (hSorted : Entries.Sorted compare entries)
    (hBounds : ∀ entry ∈ entries, entry.2 ≠ [] ∧
      ∀ range ∈ entry.2, range.exactBound.isSome) :
    ∃ result, selectVersions (E := E) entries selected = .ok result ∧
      (∀ entry ∈ entries, ∃ version,
        result.get entry.1 = some version ∧
          IsGreatest entry.2 version) ∧
      ∀ id, id ∉ entries.map Prod.fst → result.get id = selected.get id := by
  induction entries generalizing selected with
  | nil =>
      refine ⟨selected, rfl, List.forall_mem_nil _, ?_⟩
      intro id _
      rfl
  | cons entry entries ih =>
      rcases entry with ⟨id, ranges⟩
      rcases List.pairwise_cons.1 hSorted with ⟨hBelow, hRest⟩
      rcases hBounds (id, ranges) List.mem_cons_self with ⟨hSome, hAll⟩
      rcases greatestLowerBound_greatest (E := E) id hSome hAll with
        ⟨version, hVersion, hGreatest⟩
      rcases ih (selected.insert id version) hRest
        (fun entry hMem => hBounds entry (List.mem_cons_of_mem _ hMem)) with
        ⟨result, hResult, hEntries, hOther⟩
      have hFresh : id ∉ entries.map Prod.fst := by
        intro hMem
        rcases List.mem_map.1 hMem with ⟨entry, hEntry, hKey⟩
        have hLt := hBelow entry hEntry
        have hSelf : compare id id = .eq := Std.ReflCmp.compare_self
        rw [hKey, hSelf] at hLt
        cases hLt
      refine ⟨result, ?_, ?_, ?_⟩
      · unfold selectVersions
        rw [hVersion]
        exact hResult
      · intro entry hMem
        rcases List.mem_cons.1 hMem with hHere | hLater
        · rw [hHere]
          refine ⟨version, ?_, hGreatest⟩
          rw [hOther id hFresh, SortedMap.get_insert_self]
        · exact hEntries entry hLater
      · intro id' hNot
        rw [List.map_cons, List.mem_cons, not_or] at hNot
        rw [hOther id' hNot.2, SortedMap.get_insert_of_ne hNot.1]

theorem selectVersions_selects
    {edges : EdgeMap}
    (hBounds : ∀ id ranges, edges.get id = some ranges →
      ranges ≠ [] ∧ ∀ range ∈ ranges, range.exactBound.isSome) :
    ∃ selected, selectVersions (E := E) edges.entries SortedMap.empty =
      .ok selected ∧ Selects edges selected := by
  have hEntries : ∀ entry ∈ edges.entries, entry.2 ≠ [] ∧
      ∀ range ∈ entry.2, range.exactBound.isSome := by
    intro entry hMem
    exact hBounds entry.1 entry.2 (SortedMap.mem_entries.1 hMem)
  rcases selectVersions_entries (E := E) SortedMap.empty
    edges.sorted hEntries with ⟨selected, hSelected, hEach, hOther⟩
  refine ⟨selected, hSelected, ?_, ?_⟩
  · intro id ranges hGet
    exact hEach (id, ranges) (SortedMap.mem_entries.2 hGet)
  · intro id hSome
    by_cases hMem : id ∈ edges.entries.map Prod.fst
    · rcases List.mem_map.1 hMem with ⟨entry, hEntry, rfl⟩
      rw [SortedMap.mem_entries.1 hEntry]
      rfl
    · rw [hOther id hMem] at hSome
      cases hSome

end Walks

end NuGet

end Borzoi
