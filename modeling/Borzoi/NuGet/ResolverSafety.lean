import Borzoi.NuGet.ConflictsSound
import Borzoi.NuGet.WalkSettled

/-
  The resolver does not panic.

  On a settled walk the tree of the conflict pass has the walked nodes at
  the selected versions and the losers below them, so its closing
  assertion holds.  Every other expectation of the code is about what a
  walk keeps.

  Main declarations:
    * `Linked`
    * `conflictNodes_arena`
    * `settleConflicts_yields`
    * `finish_yields`
    * `resolve_offline_never_panics`
-/

namespace Borzoi

namespace NuGet

open Traversal

variable {E : Type}

def header
    (node : ConflictNode) :
    Option PackageId × Option NuGetVersion :=
  (node.id, node.version)

/- The children of a node are the indices below `m` that have it as their
   parent. -/
def Linked
    (parentOf : Nat → Option Nat)
    (m : Nat)
    (nodes : List ConflictNode) :
    Prop :=
  ∀ (i : Nat) (node : ConflictNode), nodes[i]? = some node →
    node.children.Nodup ∧
      ∀ c, c ∈ node.children ↔ c < m ∧ parentOf c = some i

section Links

variable {parentOf : Nat → Option Nat} {m : Nat} {nodes : List ConflictNode}

theorem Linked.skip
    (hLinked : Linked parentOf m nodes)
    (hNone : parentOf m = none) :
    Linked parentOf (m + 1) nodes := by
  intro i node hNode
  rcases hLinked i node hNode with ⟨hNodup, hMem⟩
  refine ⟨hNodup, ?_⟩
  intro c
  rw [hMem c]
  constructor
  · rintro ⟨hLt, hParent⟩
    exact ⟨by omega, hParent⟩
  · rintro ⟨hLt, hParent⟩
    have hNe : c ≠ m := by
      rintro rfl
      rw [hNone] at hParent
      cases hParent
    exact ⟨by omega, hParent⟩

theorem Linked.push
    {p : Nat}
    (hLinked : Linked parentOf m nodes)
    (hParent : parentOf m = some p)
    (hLt : p < nodes.length) :
    ∃ nodes', pushChild (E := E) nodes p m = .ok nodes' ∧
      Linked parentOf (m + 1) nodes' ∧
      nodes'.map header = nodes.map header := by
  unfold pushChild
  rw [if_neg (Nat.not_le.2 hLt)]
  refine ⟨_, rfl, ?_, ?_⟩
  · intro i node hNode
    rw [List.getElem?_modify] at hNode
    cases hBefore : nodes[i]? with
    | none =>
        rw [hBefore] at hNode
        cases hNode
    | some old =>
        rw [hBefore] at hNode
        rcases hLinked i old hBefore with ⟨hNodup, hMem⟩
        have hEq : (if p = i then
            { old with children := old.children ++ [m] } else old) =
            node := Option.some.inj hNode
        by_cases hHere : p = i
        · rw [if_pos hHere] at hEq
          rw [← hEq]
          have hFresh : m ∉ old.children := by
            intro hIn
            have hLess := ((hMem m).1 hIn).1
            omega
          refine ⟨?_, ?_⟩
          · apply List.nodup_append.2
            refine ⟨hNodup, List.nodup_singleton m, ?_⟩
            intro a ha b hb hAb
            rw [List.mem_singleton.1 hb] at hAb
            rw [hAb] at ha
            exact hFresh ha
          · intro c
            rw [List.mem_append, List.mem_singleton, hMem c]
            constructor
            · rintro (⟨hLess, hUp⟩ | rfl)
              · exact ⟨by omega, hUp⟩
              · rw [← hHere]
                exact ⟨by omega, hParent⟩
            · rintro ⟨hLess, hUp⟩
              by_cases hLast : c = m
              · exact Or.inr hLast
              · exact Or.inl ⟨by omega, hUp⟩
        · rw [if_neg hHere] at hEq
          rw [← hEq]
          refine ⟨hNodup, ?_⟩
          intro c
          rw [hMem c]
          constructor
          · rintro ⟨hLess, hUp⟩
            exact ⟨by omega, hUp⟩
          · rintro ⟨hLess, hUp⟩
            have hNe : c ≠ m := by
              rintro rfl
              rw [hParent] at hUp
              exact hHere (Option.some.inj hUp)
            exact ⟨by omega, hUp⟩
  · apply List.ext_getElem?
    intro i
    rw [List.getElem?_map, List.getElem?_map, List.getElem?_modify]
    cases nodes[i]? with
    | none =>
        rfl
    | some old =>
        by_cases hHere : p = i
        · simp only [hHere, if_pos, Option.map_eq_map, Option.map_some,
            header]
        · simp only [hHere, if_false, Option.map_eq_map, Option.map_some]

theorem Linked.leaf
    (leaf : ConflictNode)
    (hLinked : Linked parentOf m nodes)
    (hLeaf : leaf.children = [])
    (hBelow : ∀ c p, parentOf c = some p → p < nodes.length) :
    Linked parentOf m (nodes ++ [leaf]) := by
  intro i node hNode
  rcases Nat.lt_or_ge i nodes.length with hOld | hNew
  · rw [List.getElem?_append_left hOld] at hNode
    exact hLinked i node hNode
  · rw [List.getElem?_append_right hNew] at hNode
    rw [List.mem_singleton.1 (List.mem_of_getElem? hNode), hLeaf]
    refine ⟨List.nodup_nil, ?_⟩
    intro c
    constructor
    · intro hMem
      cases hMem
    · rintro ⟨-, hUp⟩
      have hLt := hBelow c i hUp
      omega

theorem linkNodes_linked
    (rest : List Node)
    (hLinked : Linked parentOf m nodes)
    (hParents : ∀ (k : Nat) (node : Node), rest[k]? = some node →
      node.parent = parentOf (m + k))
    (hBelow : ∀ c p, parentOf c = some p → p < nodes.length) :
    ∃ nodes', linkNodes (E := E) rest m nodes = .ok nodes' ∧
      Linked parentOf (m + rest.length) nodes' ∧
      nodes'.map header = nodes.map header := by
  induction rest generalizing m nodes with
  | nil =>
      exact ⟨nodes, rfl, hLinked, rfl⟩
  | cons node rest ih =>
      have hHere : node.parent = parentOf m := hParents 0 node rfl
      have hLater : ∀ (k : Nat) (n : Node), rest[k]? = some n →
          n.parent = parentOf (m + 1 + k) := by
        intro k n hGet
        rw [hParents (k + 1) n hGet]
        congr 1
        omega
      have hLength : m + (node :: rest).length = m + 1 + rest.length := by
        rw [List.length_cons]
        omega
      unfold linkNodes
      rw [hHere, hLength]
      cases hParent : parentOf m with
      | none =>
          exact ih (hLinked.skip hParent) hLater hBelow
      | some p =>
          rcases hLinked.push (E := E) hParent (hBelow m p hParent) with
            ⟨nodes', hPush, hLinked', hHeaders⟩
          have hSame : nodes'.length = nodes.length := by
            have hMap := congrArg List.length hHeaders
            rw [List.length_map, List.length_map] at hMap
            exact hMap
          dsimp only
          rw [hPush]
          rcases ih hLinked' hLater (by rw [hSame]; exact hBelow) with
            ⟨nodes'', hLink, hLinked'', hHeaders'⟩
          exact ⟨nodes'', hLink, hLinked'', hHeaders'.trans hHeaders⟩

/- The header of a loser's leaf. -/
def loserHeader
    (loser : Loser) :
    Option PackageId × Option NuGetVersion :=
  (some loser.identity.id, some loser.identity.version)

theorem linkLosers_linked
    (rest : List Loser)
    (hLinked : Linked parentOf nodes.length nodes)
    (hParents : ∀ (k : Nat) (loser : Loser), rest[k]? = some loser →
      parentOf (nodes.length + k) = some loser.parent)
    (hBelow : ∀ c p, parentOf c = some p → p < nodes.length) :
    ∃ nodes', linkLosers (E := E) rest nodes = .ok nodes' ∧
      Linked parentOf nodes'.length nodes' ∧
      nodes'.map header = nodes.map header ++ rest.map loserHeader := by
  induction rest generalizing nodes with
  | nil =>
      refine ⟨nodes, rfl, hLinked, ?_⟩
      rw [List.map_nil, List.append_nil]
  | cons loser rest ih =>
      have hHere : parentOf nodes.length = some loser.parent :=
        hParents 0 loser rfl
      have hLeaf := Linked.leaf
        ⟨some loser.identity.id, some loser.identity.version, []⟩ hLinked
        rfl hBelow
      have hLt := hBelow _ _ hHere
      have hLonger : (nodes ++ [(⟨some loser.identity.id,
          some loser.identity.version, []⟩ : ConflictNode)]).length =
          nodes.length + 1 := List.length_append
      have hLt' : loser.parent < (nodes ++ [(⟨some loser.identity.id,
          some loser.identity.version, []⟩ : ConflictNode)]).length := by
        omega
      rcases hLeaf.push (E := E) hHere hLt' with
        ⟨nodes', hPush, hLinked', hHeaders⟩
      have hSame : nodes'.length = nodes.length + 1 := by
        have hMap := congrArg List.length hHeaders
        rw [List.length_map, List.length_map, hLonger] at hMap
        exact hMap
      unfold linkLosers
      dsimp only
      rw [hPush]
      rw [← hSame] at hLinked'
      rcases ih hLinked' (by
          intro k l hGet
          rw [hSame]
          have hAt := hParents (k + 1) l hGet
          rw [← hAt]
          congr 1
          omega) (by
          intro c p hUp
          have hLess := hBelow c p hUp
          omega) with ⟨nodes'', hLink, hLinked'', hHeaders'⟩
      refine ⟨nodes'', hLink, hLinked'', ?_⟩
      rw [hHeaders', hHeaders, List.map_append, List.append_assoc]
      rfl

end Links

------------------------------------------------------------
-- The Arena
------------------------------------------------------------

variable {ranges : List VersionRange} {loser : Loser} {version : NuGetVersion}
variable {id : PackageId}

section Arena

variable {folder : Folder E} {direct : List DirectPackageRequirement}
variable {before selected : Versions} {w : Walking}

/- The parent of a node of the conflict pass. -/
def parentOf
    (w : Walking)
    (c : Nat) :
    Option Nat :=
  match w.nodes[c]? with
  | some node => node.parent
  | none => (w.losers[c - w.nodes.length]?).map Loser.parent

theorem parentOf_lt
    {c p : Nat}
    (hSound : Sound w)
    (hParent : parentOf w c = some p) :
    p < w.nodes.length ∧ p < c := by
  unfold parentOf at hParent
  cases hNode : w.nodes[c]? with
  | some node =>
      rw [hNode] at hParent
      have hBefore := hSound.tree.parent_lt hNode hParent
      rcases List.getElem?_eq_some_iff.1 hNode with ⟨hLt, -⟩
      omega
  | none =>
      rw [hNode] at hParent
      have hLe : w.nodes.length ≤ c := List.getElem?_eq_none_iff.1 hNode
      rcases Option.map_eq_some_iff.1 hParent with ⟨loser, hLoser, rfl⟩
      have hLt := hSound.losers loser (List.mem_of_getElem? hLoser)
      omega

/- A walked node as the conflict pass sees it. -/
def plainNode
    (selected : Versions)
    (node : Node) :
    ConflictNode :=
  ⟨node.id, node.id.bind selected.get, []⟩

variable {node : ConflictNode} {nodes : List ConflictNode}
variable {dispositions : List Disposition} {i : Nat} {bound : NuGetVersion}

theorem selected_of_node
    {node : Node}
    (hEnded : Ended folder direct before w selected)
    (hNode : w.nodes[i]? = some node)
    (hId : node.id = some id) :
    ∃ ranges version, w.edges.get id = some ranges ∧
      selected.get id = some version ∧ IsGreatest ranges version := by
  have hKnown := (hEnded.sound.known i node id hNode hId).2
  rcases Option.isSome_iff_exists.1 hKnown with ⟨ranges, hRanges⟩
  rcases hEnded.selects.greatest id ranges hRanges with
    ⟨version, hVersion, hGreatest⟩
  exact ⟨ranges, version, hRanges, hVersion, hGreatest⟩

theorem plainNodes_ok
    {nodes : List Node}
    (hAll : ∀ node ∈ nodes, ∀ id, node.id = some id →
      (selected.get id).isSome) :
    mapEach (E := E) (conflictNode (endWalk w selected)) nodes =
      .ok (nodes.map (plainNode selected)) := by
  induction nodes with
  | nil =>
      rfl
  | cons node nodes ih =>
      have hRest := ih fun n hMem =>
        hAll n (List.mem_cons_of_mem _ hMem)
      have hHead : conflictNode (E := E) (endWalk w selected) node =
          .ok (plainNode selected node) := by
        unfold conflictNode plainNode
        cases hId : node.id with
        | none =>
            rfl
        | some id =>
            rcases Option.isSome_iff_exists.1
              (hAll node List.mem_cons_self id hId) with
              ⟨version, hVersion⟩
            have hDemanded : demanded (E := E) (endWalk w selected) id =
                .ok version := by
              unfold demanded endWalk
              dsimp only
              rw [hVersion]
              rfl
            dsimp only
            rw [hDemanded]
            dsimp only
            rw [Option.bind_some, hVersion]
      unfold mapEach
      rw [hHead, hRest]
      rfl

/- The tree of the conflict pass: its headers and its links. -/
theorem conflictNodes_linked
    (hEnded : Ended folder direct before w selected) :
    ∃ nodes, conflictNodes (E := E) (endWalk w selected) = .ok nodes ∧
      Linked (parentOf w) nodes.length nodes ∧
      nodes.map header =
        w.nodes.map (fun node => (node.id, node.id.bind selected.get)) ++
          w.losers.map loserHeader := by
  have hPlain : mapEach (E := E) (conflictNode (endWalk w selected))
      w.nodes = .ok (w.nodes.map (plainNode selected)) := by
    apply plainNodes_ok
    intro node hMem id hId
    rcases List.getElem?_of_mem hMem with ⟨i, hNode⟩
    rcases selected_of_node hEnded hNode hId with
      ⟨ranges, version, -, hVersion, -⟩
    rw [hVersion]
    rfl
  have hLength : (w.nodes.map (plainNode selected)).length =
      w.nodes.length := List.length_map _
  have hBelow : ∀ c p, parentOf w c = some p → p < w.nodes.length := by
    intro c p hParent
    exact (parentOf_lt hEnded.sound hParent).1
  have hStart : Linked (parentOf w) 0
      (w.nodes.map (plainNode selected)) := by
    intro i node hNode
    rw [List.getElem?_map] at hNode
    rcases Option.map_eq_some_iff.1 hNode with ⟨n, -, rfl⟩
    refine ⟨List.nodup_nil, ?_⟩
    intro c
    constructor
    · intro hMem
      cases hMem
    · rintro ⟨hLt, -⟩
      omega
  rcases linkNodes_linked (E := E) w.nodes hStart (by
      intro k node hNode
      unfold parentOf
      rw [Nat.zero_add, hNode]) (by rw [hLength]; exact hBelow) with
    ⟨linked, hLink, hLinked, hHeaders⟩
  have hLinkedLength : linked.length = w.nodes.length := by
    have hMap := congrArg List.length hHeaders
    rw [List.length_map, List.length_map, hLength] at hMap
    exact hMap
  rw [Nat.zero_add, ← hLinkedLength] at hLinked
  rcases linkLosers_linked (E := E) w.losers hLinked (by
      intro k loser hLoser
      unfold parentOf
      have hNone : w.nodes[linked.length + k]? = none := by
        rw [List.getElem?_eq_none_iff]
        omega
      have hBack : linked.length + k - w.nodes.length = k := by omega
      rw [hNone]
      dsimp only
      rw [hBack, hLoser]
      rfl) (by rw [hLinkedLength]; exact hBelow) with
    ⟨nodes, hLink', hLinked', hHeaders'⟩
  refine ⟨nodes, ?_, hLinked', ?_⟩
  · unfold conflictNodes
    have hNodes : (endWalk w selected).nodes = w.nodes := rfl
    rw [hNodes, hPlain]
    dsimp only
    rw [hLink]
    exact hLink'
  · rw [hHeaders', hHeaders, List.map_map]
    rfl

/- An accepted edge has been noted as one. -/
theorem Traced.accepted
    {i k : Nat}
    {edge : Edge}
    (hTraced : Traced folder direct before (fun _ _ => True) w)
    (hAccepts : Accepts folder direct before w.nodes i k edge bound) :
    Noted before w i k edge .Acceptable := by
  rcases hAccepts.found with ⟨n, hNode, hEdge⟩
  rcases hTraced.noted i k n edge hNode hEdge trivial with
    ⟨verdict, hVerdict, hNoted⟩
  rw [hAccepts.verdict] at hVerdict
  cases hVerdict
  exact hNoted

theorem NuGetVersion.eq_comm
    (v u : NuGetVersion) :
    v.eq u = u.eq v := by
  have hSwap : v.cmp u = (u.cmp v).swap := Std.OrientedCmp.eq_swap
  unfold NuGetVersion.eq
  rw [hSwap]
  cases u.cmp v with
  | lt =>
      rfl
  | eq =>
      rfl
  | gt =>
      rfl

/- Winning against the versions before is winning against the selected
   ones. -/
theorem Settled.isWinner_iff
    (hSettled : Settled folder direct before w selected)
    (hVersion : selected.get id = some version) :
    isWinner before id bound = true ↔ bound.eq version = true := by
  rcases hSettled.same id version hVersion with
    ⟨version', hBefore, hEq⟩
  have hCmp : version.cmp version' = .eq := beq_iff_eq.1 hEq
  unfold isWinner
  rw [hBefore, NuGetVersion.eq_comm bound version]
  unfold NuGetVersion.eq
  rw [beq_iff_eq, beq_iff_eq, Std.TransCmp.congr_left hCmp]

/- Every selected package has a walked node. -/
theorem Settled.winner
    (hSettled : Settled folder direct before w selected)
    (hRanges : w.edges.get id = some ranges) :
    ∃ n ∈ w.nodes, n.id = some id := by
  rcases hSettled.ended.selects.greatest id ranges hRanges with
    ⟨version, hVersion, hGreatest⟩
  rcases hGreatest.attained with ⟨range, hMem, hBound⟩
  rcases hSettled.traced.edge id ranges hRanges range hMem with
    ⟨i, k, bound, hAccepts⟩
  rcases hSettled.traced.accepted hAccepts with
    ⟨-, bound', hBound', hCase⟩
  dsimp only at hBound' hCase
  rw [hBound] at hBound'
  cases hBound'
  rcases hCase with ⟨-, hNode⟩ | ⟨hLost, -⟩
  · exact ⟨_, hNode, rfl⟩
  · have hWon : isWinner before id version = true := by
      rw [hSettled.isWinner_iff hVersion]
      exact versionEq_refl (some version)
    rw [hWon] at hLost
    cases hLost

/- A loser is below the selected version of its package. -/
theorem Settled.loser_below
    (hSettled : Settled folder direct before w selected)
    (hLoser : loser ∈ w.losers) :
    ∃ ranges version, w.edges.get loser.identity.id = some ranges ∧
      selected.get loser.identity.id = some version ∧
      loser.identity.version.cmp version = .lt := by
  rcases hSettled.traced.loser loser hLoser with ⟨range, hAccepts, hLost⟩
  rcases hSettled.traced.accepted hAccepts with
    ⟨⟨ranges, hRanges, hMem⟩, -⟩
  dsimp only at hRanges hMem
  rcases hSettled.ended.selects.greatest _ ranges hRanges with
    ⟨version, hVersion, hGreatest⟩
  refine ⟨ranges, version, hRanges, hVersion, ?_⟩
  have hLe := hGreatest.upper range hMem _ hAccepts.exact
  have hNe : loser.identity.version.cmp version ≠ .eq := by
    intro hEq
    have hWon : isWinner before loser.identity.id
        loser.identity.version = true := by
      rw [hSettled.isWinner_iff hVersion]
      exact beq_iff_eq.2 hEq
    rw [hWon] at hLost
    cases hLost
  have hNotGt := NuGetVersion.le_iff.1 hLe
  cases hCmp : loser.identity.version.cmp version with
  | lt =>
      rfl
  | eq =>
      exact absurd hCmp hNe
  | gt =>
      exact absurd hCmp hNotGt

/- The walked nodes and the losers of the conflict pass. -/
theorem conflictNode_cases
    {j : Nat}
    (hHeaders : nodes.map header =
      w.nodes.map (fun node => (node.id, node.id.bind selected.get)) ++
        w.losers.map loserHeader)
    (hNode : nodes[j]? = some node) :
    (∃ n, w.nodes[j]? = some n ∧ node.id = n.id ∧
      node.version = n.id.bind selected.get) ∨
    (w.nodes.length ≤ j ∧ ∃ loser ∈ w.losers,
      w.losers[j - w.nodes.length]? = some loser ∧
      node.id = some loser.identity.id ∧
      node.version = some loser.identity.version) := by
  have hHeader : (w.nodes.map
      (fun node => (node.id, node.id.bind selected.get)) ++
      w.losers.map loserHeader)[j]? = some (header node) := by
    rw [← hHeaders, List.getElem?_map, hNode]
    rfl
  rcases Nat.lt_or_ge j w.nodes.length with hLt | hGe
  · rw [List.getElem?_append_left (by rw [List.length_map]; exact hLt),
      List.getElem?_map] at hHeader
    rcases Option.map_eq_some_iff.1 hHeader with ⟨n, hN, hEq⟩
    exact Or.inl ⟨n, hN, (congrArg Prod.fst hEq).symm,
      (congrArg Prod.snd hEq).symm⟩
  · rw [List.getElem?_append_right (by rw [List.length_map]; exact hGe),
      List.length_map, List.getElem?_map] at hHeader
    rcases Option.map_eq_some_iff.1 hHeader with ⟨loser, hLoser, hEq⟩
    exact Or.inr ⟨hGe, loser, List.mem_of_getElem? hLoser, hLoser,
      (congrArg Prod.fst hEq).symm, (congrArg Prod.snd hEq).symm⟩

theorem versionGe_of_le
    {v u : NuGetVersion}
    (hLe : v.Le u) :
    versionGe (some u) (some v) = true := by
  have hNotGt := NuGetVersion.le_iff.1 hLe
  have hSwap : u.cmp v = (v.cmp u).swap := Std.OrientedCmp.eq_swap
  unfold versionGe
  dsimp only
  rw [hSwap, bne_iff_ne]
  cases hCmp : v.cmp u with
  | lt =>
      exact Ordering.noConfusion
  | eq =>
      exact Ordering.noConfusion
  | gt =>
      exact absurd hCmp hNotGt

theorem conflictNodes_arena
    (hSettled : Settled folder direct before w selected) :
    ∃ nodes, conflictNodes (E := E) (endWalk w selected) = .ok nodes ∧
      Arena nodes w.nodes.length := by
  have hSound := hSettled.ended.sound
  rcases conflictNodes_linked hSettled.ended with
    ⟨nodes, hOk, hLinked, hHeaders⟩
  have hLength : nodes.length = w.nodes.length + w.losers.length := by
    have hMap := congrArg List.length hHeaders
    rw [List.length_map, List.length_append, List.length_map,
      List.length_map] at hMap
    exact hMap
  have hMemChildren : ∀ i c, c ∈ childrenOf nodes i →
      c < nodes.length ∧ parentOf w c = some i := by
    intro i c hMem
    unfold childrenOf at hMem
    cases hNode : nodes[i]? with
    | none =>
        rw [hNode] at hMem
        cases hMem
    | some node =>
        rw [hNode] at hMem
        exact ((hLinked i node hNode).2 c).1 hMem
  have hChild : ∀ c p, c < nodes.length → parentOf w c = some p →
      c ∈ childrenOf nodes p := by
    intro c p hLt hParent
    have hP := (parentOf_lt hSound hParent).1
    have hP' : p < nodes.length := by omega
    rw [childrenOf_eq (List.getElem?_eq_getElem hP')]
    exact ((hLinked p _ (List.getElem?_eq_getElem hP')).2 c).2
      ⟨hLt, hParent⟩
  refine ⟨nodes, hOk, hSound.tree.length_pos, by omega,
    ⟨?_, ?_, ?_⟩, ?_, ?_, ?_, ?_, ?_, ?_⟩
  · intro i c hMem
    rcases hMemChildren i c hMem with ⟨hLt, hParent⟩
    exact ⟨(parentOf_lt hSound hParent).2, hLt⟩
  · intro i
    unfold childrenOf
    cases hNode : nodes[i]? with
    | none =>
        exact List.nodup_nil
    | some node =>
        exact (hLinked i node hNode).1
  · intro i j c hI hJ
    have hFirst := (hMemChildren i c hI).2
    have hSecond := (hMemChildren j c hJ).2
    rw [hFirst] at hSecond
    exact Option.some.inj hSecond
  · intro c hPos hLt
    have hParent : ∃ p, parentOf w c = some p := by
      unfold parentOf
      cases hNode : w.nodes[c]? with
      | some node =>
          rcases hSound.tree.inner c node hNode (Nat.ne_of_gt hPos) with
            ⟨-, p, -, hP, -⟩
          exact ⟨p, hP⟩
      | none =>
          have hLe : w.nodes.length ≤ c :=
            List.getElem?_eq_none_iff.1 hNode
          have hLt' : c - w.nodes.length < w.losers.length := by omega
          dsimp only
          rw [List.getElem?_eq_getElem hLt']
          exact ⟨_, rfl⟩
    rcases hParent with ⟨p, hP⟩
    exact ⟨p, hChild c p hLt hP⟩
  · intro i node hNode hGe
    apply List.eq_nil_iff_forall_not_mem.2
    intro c hMem
    have hParent := (((hLinked i node hNode).2 c).1 hMem).2
    have hP := (parentOf_lt hSound hParent).1
    omega
  · intro node hNode
    rcases conflictNode_cases hHeaders hNode with
      ⟨n, hN, hId, hVersion⟩ | ⟨hGe, -⟩
    · rw [hSound.tree.root] at hN
      cases hN
      exact ⟨hId, hVersion⟩
    · have hPos := hSound.tree.length_pos
      omega
  · intro i node hNode hNe
    rcases conflictNode_cases hHeaders hNode with
      ⟨n, hN, hId, -⟩ | ⟨-, loser, -, -, hId, -⟩
    · rcases hSound.tree.inner i n hN hNe with ⟨id, -, hSome, -⟩
      rw [hId, hSome]
      exact Option.some_ne_none id
    · rw [hId]
      exact Option.some_ne_none _
  · intro i j node other hNode hWalked hOther hSame
    rcases conflictNode_cases hHeaders hNode with
      ⟨n, hN, hId, hVersion⟩ | ⟨hGe, -⟩
    · rw [hVersion]
      rcases conflictNode_cases hHeaders hOther with
        ⟨n', hN', hId', hVersion'⟩ |
        ⟨-, loser, hLoser, -, hId', hVersion'⟩
      · rw [hVersion', ← hId, ← hId', hSame]
        cases hCase : node.id.bind selected.get with
        | none =>
            rfl
        | some v =>
            exact versionGe_of_le (NuGetVersion.Le.refl v)
      · rcases hSettled.loser_below hLoser with
          ⟨ranges, version, -, hSelected, hBelow⟩
        rw [hVersion', ← hId, ← hSame, hId', Option.bind_some, hSelected]
        apply versionGe_of_le
        unfold NuGetVersion.Le
        rw [hBelow]
        rfl
    · omega
  · intro j loser hNode hGe
    rcases conflictNode_cases hHeaders hNode with
      ⟨n, hN, -⟩ | ⟨-, lost, hLost, -, hId, hVersion⟩
    · rcases List.getElem?_eq_some_iff.1 hN with ⟨hLt, -⟩
      omega
    · rcases hSettled.loser_below hLost with
        ⟨ranges, version, hRanges, hSelected, hBelow⟩
      rcases hSettled.winner hRanges with ⟨n, hN, hNId⟩
      rcases List.getElem?_of_mem hN with ⟨i, hI⟩
      rcases List.getElem?_eq_some_iff.1 hI with ⟨hLt, -⟩
      have hLt' : i < nodes.length := by omega
      refine ⟨i, nodes[i], hLt, List.getElem?_eq_getElem hLt', ?_⟩
      rcases conflictNode_cases hHeaders
        (List.getElem?_eq_getElem hLt') with
        ⟨n', hN', hId', hVersion'⟩ | ⟨hGe', -⟩
      · rw [hI] at hN'
        cases hN'
        rw [hId', hVersion', hId, hVersion, hNId]
        refine ⟨rfl, ?_⟩
        rw [Option.bind_some, hSelected]
        unfold versionGe
        dsimp only
        rw [hBelow]
        rfl
      · omega

theorem foldl_insert_isSome
    {ids : List PackageId}
    (set : SortedMap PackageId Unit compare)
    (hMem : id ∈ ids ∨ (set.get id).isSome) :
    ((ids.foldl (fun set id => set.insert id ()) set).get id).isSome := by
  induction ids generalizing set with
  | nil =>
      exact hMem.resolve_left List.not_mem_nil
  | cons first ids ih =>
      apply ih
      by_cases hSame : id = first
      · rw [hSame, SortedMap.get_insert_self]
        exact Or.inr rfl
      · rw [SortedMap.get_insert_of_ne hSame]
        rcases hMem with hIn | hSome
        · exact Or.inl ((List.mem_cons.1 hIn).resolve_left hSame)
        · exact Or.inr hSome

/- When no name is undecided, a node that is has no name. -/
theorem undecidedIds_nil
    (hNil : undecidedIds nodes dispositions = [])
    (hNode : nodes[i]? = some node)
    (hDisposition : dispositions[i]? = some .Acceptable) :
    node.id = none := by
  cases hId : node.id with
  | none =>
      rfl
  | some id =>
      have hPair : (node, Disposition.Acceptable) ∈
          nodes.zip dispositions := by
        apply List.mem_of_getElem?
        rw [List.getElem?_zip_eq_some]
        exact ⟨hNode, hDisposition⟩
      have hIn : id ∈ (nodes.zip dispositions).filterMap fun pair =>
          if pair.2 = .Acceptable then pair.1.id else none := by
        rw [List.mem_filterMap]
        exact ⟨_, hPair, hId⟩
      have hSome := foldl_insert_isSome SortedMap.empty (Or.inl hIn)
      rcases Option.isSome_iff_exists.1 hSome with ⟨u, hGet⟩
      have hEntry := SortedMap.mem_entries.2 hGet
      have hListed : id ∈ undecidedIds nodes dispositions :=
        List.mem_map.2 ⟨_, hEntry, rfl⟩
      rw [hNil] at hListed
      cases hListed

/- A pass that leaves no name undecided has accepted the walked nodes and
   rejected the losers. -/
theorem assertSettled_ok
    {walked : Nat}
    (hArena : Arena nodes walked)
    (hSettling : Settling nodes walked dispositions)
    (hRoot : dispositions[0]? = some .Accepted)
    (hNil : undecidedIds nodes dispositions = []) :
    assertSettled (E := E) walked dispositions = .ok () := by
  unfold assertSettled
  rw [if_pos]
  rw [List.all_eq_true]
  rintro ⟨disposition, i⟩ hMem
  have hGet : dispositions[i]? = some disposition := by
    rw [List.mem_zipIdx_iff_getElem?] at hMem
    exact hMem
  have hDecided : disposition ≠ .Acceptable := by
    intro hUndecided
    rw [hUndecided] at hGet
    rcases List.getElem?_eq_some_iff.1 hGet with ⟨hLt, -⟩
    rw [hSettling.length] at hLt
    have hNode := List.getElem?_eq_getElem hLt
    by_cases hZero : i = 0
    · rw [hZero, hRoot] at hGet
      cases hGet
    · exact hArena.inner i _ hNode hZero
        (undecidedIds_nil hNil hNode hGet)
  dsimp only
  by_cases hWalked : i < walked
  · rw [if_pos hWalked, beq_iff_eq]
    have hKept := hSettling.kept i hWalked
    rw [hGet] at hKept
    cases disposition with
    | Acceptable =>
        exact absurd rfl hDecided
    | Accepted =>
        rfl
    | Rejected =>
        exact absurd rfl hKept
  · rw [if_neg hWalked, beq_iff_eq]
    have hLost := hSettling.lost i (Nat.not_lt.1 hWalked)
    rw [hGet] at hLost
    cases disposition with
    | Acceptable =>
        exact absurd rfl hDecided
    | Accepted =>
        exact absurd rfl hLost
    | Rejected =>
        rfl

theorem settleConflicts_yields
    (hSettled : Settled folder direct before w selected) :
    Yields (fun _ => True)
      (settleConflicts (E := E) (endWalk w selected)) := by
  rcases conflictNodes_arena hSettled with ⟨nodes, hNodes, hArena⟩
  rcases settleRounds_settling 998 hArena with
    ⟨dispositions, hRounds, hSettling, hRoot⟩
  have hPass : settleRounds nodes CONFLICT_PASS_ROUNDS
      (List.replicate nodes.length .Acceptable) = .ok dispositions :=
    hRounds
  unfold settleConflicts
  rw [hNodes]
  dsimp only
  rw [hPass]
  dsimp only
  by_cases hNil : undecidedIds nodes dispositions = []
  · rw [if_neg (not_not.2 hNil)]
    have hWalked : (endWalk w selected).nodes.length = w.nodes.length :=
      rfl
    rw [hWalked, assertSettled_ok hArena hSettling hRoot hNil]
    trivial
  · rw [if_pos hNil]
    trivial

end Arena

------------------------------------------------------------
-- The Checks
------------------------------------------------------------

section Checks

variable {folder : Folder E} {direct : List DirectPackageRequirement}
variable {before selected : Versions} {w : Walking}

theorem unread_yields
    {α : Type}
    {P : α → Prop}
    {identity : PackageIdentity}
    (hNone : folder.get identity = none) :
    Yields P (unread (α := α) folder identity) := by
  unfold unread Folder.takeError
  unfold Folder.get at hNone
  cases hEntry : folder.entry identity with
  | error source =>
      trivial
  | ok cached =>
      rw [hEntry] at hNone
      cases hNone

/- The packages of a walk are selected. -/
theorem demanded_yields
    (hEnded : Ended folder direct before w selected)
    (hRanges : w.edges.get id = some ranges) :
    ∃ version, demanded (E := E) (endWalk w selected) id = .ok version := by
  rcases hEnded.selects.greatest id ranges hRanges with
    ⟨version, hVersion, -⟩
  refine ⟨version, ?_⟩
  unfold demanded endWalk
  dsimp only
  rw [hVersion]
  rfl

theorem resolvePackage_yields
    (hEnded : Ended folder direct before w selected)
    (hRanges : w.edges.get id = some ranges) :
    Yields (fun _ => True)
      (resolvePackage folder (endWalk w selected) id) := by
  rcases demanded_yields hEnded hRanges with ⟨version, hVersion⟩
  unfold resolvePackage
  rw [hVersion]
  dsimp only
  cases hGet : folder.get ⟨id, version⟩ with
  | none =>
      exact unread_yields hGet
  | some cached =>
      trivial

theorem checkShape_yields
    (hEnded : Ended folder direct before w selected)
    (hRanges : w.edges.get id = some ranges) :
    Yields (fun _ => True)
      (checkShape (E := E) (endWalk w selected) id) := by
  rcases demanded_yields hEnded hRanges with ⟨version, hVersion⟩
  unfold checkShape
  rw [hVersion]
  dsimp only
  split <;> trivial

theorem checkLosingEdge_yields
    {range : VersionRange}
    (hBound : range.exactBound.isSome) :
    Yields (fun _ => True) (checkLosingEdge folder id version range) := by
  rcases Option.isSome_iff_exists.1 hBound with ⟨bound, hSome⟩
  unfold checkLosingEdge
  rw [expectLowerBound_eq, hSome]
  unfold expect
  dsimp only
  split
  · trivial
  · split <;> trivial

theorem checkSatisfied_yields
    {range : VersionRange} :
    Yields (fun _ => True) (checkSatisfied (E := E) id version range) := by
  unfold checkSatisfied
  split <;> trivial

theorem checkRanges_yields
    {check : PackageId → NuGetVersion → VersionRange → Outcome E Unit}
    (hEnded : Ended folder direct before w selected)
    (hRanges : w.edges.get id = some ranges)
    (hCheck : ∀ version, ∀ range ∈ ranges, range.exactBound.isSome →
      Yields (fun _ => True) (check id version range)) :
    Yields (fun _ => True)
      (checkRanges (endWalk w selected) check (id, ranges)) := by
  rcases demanded_yields hEnded hRanges with ⟨version, hVersion⟩
  unfold checkRanges
  rw [hVersion]
  apply Yields.forEach
  intro range hMem
  apply hCheck version range hMem
  exact (hEnded.sound.bounds id ranges hRanges).2 range hMem

theorem checkLoserDependency_yields
    {dependency : PackageDependency}
    {nodes : List Node}
    (hTree : Tree nodes) :
    Yields (fun _ => True)
      (checkLoserDependency folder direct (endWalk w selected) nodes loser
        dependency) := by
  have hPos := hTree.length_pos
  unfold checkLoserDependency
  dsimp only
  split
  · trivial
  · split
    · trivial
    · next range hRange =>
        have hLast : nodes.length - 1 < nodes.length := by omega
        have hTotal : ∃ verdict, classify folder direct nodes
            (nodes.length - 1) dependency.id range
            (endWalk w selected).selected = .ok verdict :=
          classify_total hTree hLast
        rcases hTotal with ⟨verdict, hVerdict⟩
        rw [hVerdict]
        cases verdict <;> trivial

theorem checkLoser_yields
    (hEnded : Ended folder direct before w selected)
    (hLoser : loser ∈ w.losers) :
    Yields (fun _ => True)
      (checkLoser folder direct (endWalk w selected) loser) := by
  unfold checkLoser
  cases hGet : folder.get loser.identity with
  | none =>
      exact unread_yields hGet
  | some cached =>
      apply Yields.forEach
      intro dependency _
      apply checkLoserDependency_yields
      exact hEnded.sound.tree.push (hEnded.sound.losers loser hLoser)

theorem enginesAgree_yields
    (hEnded : Ended folder direct before w selected) :
    Yields (fun _ => True)
      (enginesAgree folder direct (endWalk w selected)) := by
  unfold enginesAgree
  dsimp only
  split
  · trivial
  · split
    · trivial
    · apply Yields.forEach
      intro loser hLoser
      exact checkLoser_yields hEnded hLoser

variable {heldTo : Option NuGetVersion} {downgrade : PotentialDowngrade}

theorem heldBy_yields
    {edges : List Edge}
    (hBounds : ∀ edge ∈ edges, edge.2.exactBound.isSome) :
    Yields (fun _ => True) (heldBy (E := E) downgrade edges heldTo) := by
  induction edges generalizing heldTo with
  | nil =>
      trivial
  | cons edge edges ih =>
      rcases edge with ⟨id, range⟩
      rcases Option.isSome_iff_exists.1
        (hBounds (id, range) List.mem_cons_self) with ⟨bound, hSome⟩
      have hRest : ∀ held, Yields (fun _ => True)
          (heldBy (E := E) downgrade edges held) := fun held =>
        ih fun edge hMem => hBounds edge (List.mem_cons_of_mem _ hMem)
      unfold heldBy
      rw [expectLowerBound_eq]
      dsimp only at hSome
      rw [hSome]
      split
      · exact hRest _
      · split
        · exact hRest _
        · unfold expect
          dsimp only
          split
          · exact hRest _
          · exact hRest _

/- The climb from a node to the root ends before the fuel does. -/
theorem heldAbove_yields
    {fuel : Nat}
    {node : Option Nat}
    (hSound : Sound w)
    (hNode : ∀ i, node = some i → i < w.nodes.length ∧ i + 2 ≤ fuel)
    (hFuel : 0 < fuel) :
    Yields (fun _ => True)
      (heldAbove (E := E) (endWalk w selected) downgrade fuel node
        heldTo) := by
  induction fuel generalizing node heldTo with
  | zero =>
      omega
  | succ fuel ih =>
      cases node with
      | none =>
          trivial
      | some i =>
          rcases hNode i rfl with ⟨hLt, hRoom⟩
          have hLt' : i < w.surviving.length := by
            rw [hSound.survivors]
            exact hLt
          have hSurviving : (endWalk w selected).surviving[i]? =
              some w.surviving[i] := List.getElem?_eq_getElem hLt'
          have hParent : (endWalk w selected).parents[i]? =
              some w.nodes[i].parent := by
            unfold endWalk
            dsimp only
            rw [List.getElem?_map, List.getElem?_eq_getElem hLt]
            rfl
          unfold heldAbove
          rw [hSurviving, hParent]
          dsimp only
          have hHeld : Yields (fun _ => True)
              (heldBy (E := E) downgrade w.surviving[i] heldTo) :=
            heldBy_yields (hSound.surviving w.surviving[i]
              (List.getElem_mem hLt'))
          cases hCase : heldBy (E := E) downgrade w.surviving[i] heldTo with
          | error stop =>
              rw [hCase] at hHeld
              exact hHeld
          | ok held =>
              apply ih
              · intro p hUp
                have hBefore := hSound.tree.parent_lt
                  (List.getElem?_eq_getElem hLt) hUp
                omega
              · omega

theorem checkDowngrade_yields
    (hSound : Sound w)
    (hDowngrade : downgrade ∈ w.downgrades) :
    Yields (fun _ => True)
      (checkDowngrade (E := E) (endWalk w selected) downgrade) := by
  rcases hSound.downgrades downgrade hDowngrade with ⟨hParent, hFloat⟩
  unfold checkDowngrade downgradeIsRelevant
  split
  · trivial
  · rw [hFloat]
    have hHeld : Yields (fun _ => True)
        (heldAbove (E := E) (endWalk w selected) downgrade
          (w.nodes.length + 1) (some downgrade.parent) none) := by
      apply heldAbove_yields hSound
      · intro i hIs
        cases hIs
        exact ⟨hParent, by omega⟩
      · omega
    have hNodes : (endWalk w selected).nodes.length = w.nodes.length :=
      rfl
    rw [hNodes, if_neg Bool.false_ne_true]
    cases hCase : heldAbove (E := E) (endWalk w selected) downgrade
        (w.nodes.length + 1) (some downgrade.parent) none with
    | error stop =>
        rw [hCase] at hHeld
        cases stop with
        | Decline why =>
            trivial
        | Fault fault =>
            exact hHeld
    | ok held =>
        cases held with
        | none =>
            trivial
        | some version =>
            dsimp only
            cases version.eq _ <;> trivial

theorem finish_yields
    (hSettled : Settled folder direct before w selected) :
    Yields (fun _ => True) (finish folder direct (endWalk w selected)) := by
  have hEnded := hSettled.ended
  have hEntry : ∀ entry ∈ (endWalk w selected).edges.entries,
      w.edges.get entry.1 = some entry.2 := fun entry hMem =>
    SortedMap.mem_entries.1 hMem
  have hIds : ∀ id ∈ (endWalk w selected).edges.entries.map Prod.fst,
      ∃ ranges, w.edges.get id = some ranges := by
    intro id hMem
    rcases List.mem_map.1 hMem with ⟨entry, hIn, rfl⟩
    exact ⟨entry.2, hEntry entry hIn⟩
  unfold finish
  dsimp only
  apply Yields.bind (P := fun _ => True)
  · apply Yields.imp (Yields.mapEach (R := fun _ => True) _)
    · intro _ _
      trivial
    · intro id hMem
      rcases hIds id hMem with ⟨ranges, hRanges⟩
      exact resolvePackage_yields hEnded hRanges
  intro packages _ _
  apply Yields.bind (P := fun _ => True)
  · apply Yields.forEach
    intro id hMem
    rcases hIds id hMem with ⟨ranges, hRanges⟩
    exact checkShape_yields hEnded hRanges
  intro _ _ _
  apply Yields.bind (P := fun _ => True)
  · apply Yields.forEach
    intro entry hMem
    apply checkRanges_yields hEnded (hEntry entry hMem)
    intro version range _ hBound
    exact checkLosingEdge_yields hBound
  intro _ _ _
  apply Yields.bind (P := fun _ => True) (enginesAgree_yields hEnded)
  intro _ _ _
  split
  · trivial
  · apply Yields.bind (P := fun _ => True)
      (settleConflicts_yields hSettled)
    intro _ _ _
    apply Yields.bind (P := fun _ => True)
    · apply Yields.forEach
      intro entry hMem
      apply checkRanges_yields hEnded (hEntry entry hMem)
      intro version range _ _
      exact checkSatisfied_yields
    intro _ _ _
    apply Yields.bind (P := fun _ => True)
    · apply Yields.forEach
      intro downgrade hMem
      exact checkDowngrade_yields hEnded.sound hMem
    intro _ _ _
    trivial

theorem resolveRounds_yields
    {rounds : Nat} :
    Yields (fun _ => True) (resolveRounds folder direct rounds before) := by
  induction rounds generalizing before with
  | zero =>
      trivial
  | succ rounds ih =>
      have hWalk : Yields
          (fun result => ∃ w, result = endWalk w result.selected ∧
            Ended folder direct before w result.selected)
          (walk folder direct before) := walk_ended
      unfold resolveRounds
      cases hCase : walk folder direct before with
      | error stop =>
          rw [hCase] at hWalk
          cases stop with
          | Decline why =>
              trivial
          | Fault fault =>
              exact hWalk
      | ok result =>
          rw [hCase] at hWalk
          rcases hWalk with ⟨w, hResult, hEnded⟩
          dsimp only
          split
          · next hSame =>
              rw [hResult]
              exact finish_yields (hEnded.settled hSame)
          · exact ih

end Checks

/- No expectation and no assertion of the resolver fails, and its loops
   end. -/
theorem resolve_offline_never_panics
    (folder : Folder E)
    (direct : List DirectPackageRequirement)
    (targetFramework : NuGetFramework)
    (fault : Fault) :
    resolveOffline folder direct targetFramework ≠
      .error (.Fault fault) := by
  have hYields : Yields (fun _ => True)
      (resolveOffline folder direct targetFramework) := by
    unfold resolveOffline
    split
    · trivial
    · exact resolveRounds_yields
  intro hFault
  rw [hFault] at hYields
  exact hYields

end NuGet

end Borzoi
