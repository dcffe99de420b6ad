import Borzoi.NuGet.WalkSound

/-
  The conflict pass on a settled walk.

  Where the walked nodes carry the highest version of their package and
  every loser is a leaf below it, no round rejects a walked node or
  accepts a loser.
-/

namespace Borzoi

namespace NuGet

open Traversal

def childrenOf
    (nodes : List ConflictNode)
    (i : Nat) :
    List Nat :=
  match nodes[i]? with
  | some node => node.children
  | none => []

/- A tree of walked nodes, each the best of its name, with losers as
   leaves. -/
structure Arena
    (nodes : List ConflictNode)
    (walked : Nat) :
    Prop where
  pos : 0 < walked
  le : walked ≤ nodes.length
  forest : Forest nodes.length (childrenOf nodes)
  covered : ∀ c, 0 < c → c < nodes.length → ∃ p, c ∈ childrenOf nodes p
  leaf : ∀ (i : Nat) (node : ConflictNode), nodes[i]? = some node →
    walked ≤ i → node.children = []
  root : ∀ node : ConflictNode, nodes[0]? = some node →
    node.id = none ∧ node.version = none
  inner : ∀ (i : Nat) (node : ConflictNode), nodes[i]? = some node →
    i ≠ 0 → node.id ≠ none
  best : ∀ (i j : Nat) (node other : ConflictNode),
    nodes[i]? = some node → i < walked → nodes[j]? = some other →
    other.id = node.id → versionGe node.version other.version = true
  beaten : ∀ (j : Nat) (loser : ConflictNode), nodes[j]? = some loser →
    walked ≤ j → ∃ (i : Nat) (node : ConflictNode), i < walked ∧
      nodes[i]? = some node ∧ node.id = loser.id ∧
      versionGe loser.version node.version = false

/- No walked node is rejected and no loser accepted. -/
structure Settling
    (nodes : List ConflictNode)
    (walked : Nat)
    (dispositions : List Disposition) :
    Prop where
  length : dispositions.length = nodes.length
  kept : ∀ i : Nat, i < walked →
    dispositions[i]? ≠ some Disposition.Rejected
  lost : ∀ i : Nat, walked ≤ i →
    dispositions[i]? ≠ some Disposition.Accepted

theorem Settling.start
    (nodes : List ConflictNode)
    (walked : Nat) :
    Settling nodes walked (List.replicate nodes.length .Acceptable) := by
  have hAll : ∀ (i : Nat) (d : Disposition),
      (List.replicate nodes.length Disposition.Acceptable)[i]? = some d →
      d = .Acceptable := by
    intro i d hGet
    exact List.eq_of_mem_replicate (List.mem_of_getElem? hGet)
  refine ⟨List.length_replicate, ?_, ?_⟩
  · intro i _ hGet
    cases hAll i _ hGet
  · intro i _ hGet
    cases hAll i _ hGet

theorem Settling.set
    {nodes : List ConflictNode}
    {walked i : Nat}
    {dispositions : List Disposition}
    {d : Disposition}
    (hSettling : Settling nodes walked dispositions)
    (hWalked : i < walked → d ≠ .Rejected)
    (hLoser : walked ≤ i → d ≠ .Accepted) :
    Settling nodes walked (dispositions.set i d) := by
  refine ⟨?_, ?_, ?_⟩
  · rw [List.length_set]
    exact hSettling.length
  · intro j hLt hGet
    rw [List.getElem?_set] at hGet
    split at hGet
    · next hHere =>
        split at hGet
        · rw [← hHere] at hLt
          exact hWalked hLt (Option.some.inj hGet)
        · cases hGet
    · exact hSettling.kept j hLt hGet
  · intro j hLe hGet
    rw [List.getElem?_set] at hGet
    split at hGet
    · next hHere =>
        split at hGet
        · rw [← hHere] at hLe
          exact hLoser hLe (Option.some.inj hGet)
        · cases hGet
    · exact hSettling.lost j hLe hGet

theorem versionEq_refl
    (a : Option NuGetVersion) :
    versionEq a a = true := by
  cases a with
  | none =>
      rfl
  | some v =>
      have hSelf : v.cmp v = .eq := Std.ReflCmp.compare_self
      exact beq_iff_eq.2 hSelf

/- Equal versions are as great. -/
theorem versionGe_congr
    {a b c : Option NuGetVersion}
    (hEq : versionEq b c = true) :
    versionGe a b = versionGe a c := by
  cases b with
  | none =>
      cases c with
      | none =>
          rfl
      | some w =>
          cases hEq
  | some v =>
      cases c with
      | none =>
          cases hEq
      | some w =>
          cases a with
          | none =>
              rfl
          | some u =>
              have hCmp : v.cmp w = .eq := beq_iff_eq.1 hEq
              unfold versionGe
              dsimp only
              rw [Std.TransCmp.congr_right hCmp]

/- The tracked versions are versions of nodes of their name. -/
def TrackedFrom
    (nodes : List ConflictNode)
    (tracked : Tracked) :
    Prop :=
  ∀ id versions, tracked.get id = some versions → ∀ v ∈ versions,
    ∃ (j : Nat) (node : ConflictNode), nodes[j]? = some node ∧
      node.id = id ∧ node.version = v

/- The version of the node is tracked. -/
def HasTracked
    (tracked : Tracked)
    (node : ConflictNode) :
    Prop :=
  ∃ versions, tracked.get node.id = some versions ∧
    ∃ v ∈ versions, versionEq node.version v = true

variable {i : Nat}

section Tracking

variable {nodes : List ConflictNode} {tracked : Tracked} {node : ConflictNode}

theorem track_get_self
    (tracked : Tracked)
    (node : ConflictNode) :
    ∃ versions, (track tracked node).get node.id = some versions ∧
      (∃ v ∈ versions, versionEq node.version v = true) ∧
      (∀ v ∈ (tracked.get node.id).getD [], v ∈ versions) ∧
      ∀ v ∈ versions,
        v ∈ (tracked.get node.id).getD [] ∨ v = node.version := by
  unfold track
  dsimp only
  split
  · next hAny =>
      refine ⟨_, SortedMap.get_insert_self, ?_, ?_, ?_⟩
      · rcases List.any_eq_true.1 hAny with ⟨v, hMem, hEq⟩
        exact ⟨v, hMem, hEq⟩
      · intro v hMem
        exact hMem
      · intro v hMem
        exact Or.inl hMem
  · refine ⟨_, SortedMap.get_insert_self, ?_, ?_, ?_⟩
    · exact ⟨node.version, List.mem_append_right _
        (List.mem_singleton.2 rfl), versionEq_refl _⟩
    · intro v hMem
      exact List.mem_append_left _ hMem
    · intro v hMem
      rcases List.mem_append.1 hMem with hOld | hNew
      · exact Or.inl hOld
      · exact Or.inr (List.mem_singleton.1 hNew)

theorem track_get_other
    {id : Option PackageId}
    (hNe : id ≠ node.id) :
    (track tracked node).get id = tracked.get id := by
  unfold track
  dsimp only
  split
  · exact SortedMap.get_insert_of_ne hNe
  · exact SortedMap.get_insert_of_ne hNe

theorem track_from
    (hFrom : TrackedFrom nodes tracked)
    (hNode : nodes[i]? = some node) :
    TrackedFrom nodes (track tracked node) := by
  intro id versions hGet v hMem
  by_cases hSame : id = node.id
  · rcases track_get_self tracked node with
      ⟨versions', hGet', -, -, hOnly⟩
    rw [hSame, hGet'] at hGet
    cases hGet
    rcases hOnly v hMem with hOld | hNew
    · cases hBefore : tracked.get node.id with
      | none =>
          rw [hBefore] at hOld
          cases hOld
      | some before =>
          rw [hBefore] at hOld
          rw [hSame]
          exact hFrom node.id before hBefore v hOld
    · exact ⟨i, node, hNode, hSame.symm, hNew.symm⟩
  · rw [track_get_other hSame] at hGet
    exact hFrom id versions hGet v hMem

theorem HasTracked.track
    {other : ConflictNode}
    (hHas : HasTracked tracked other) :
    HasTracked (track tracked node) other := by
  rcases hHas with ⟨versions, hGet, v, hMem, hEq⟩
  by_cases hSame : other.id = node.id
  · rcases track_get_self tracked node with
      ⟨versions', hGet', -, hKept, -⟩
    rw [hSame] at hGet
    rw [hGet] at hKept
    refine ⟨versions', ?_, v, hKept v hMem, hEq⟩
    rw [hSame]
    exact hGet'
  · refine ⟨versions, ?_, v, hMem, hEq⟩
    rw [track_get_other hSame]
    exact hGet

theorem hasTracked_self :
    HasTracked (track tracked node) node := by
  rcases track_get_self tracked node with
    ⟨versions, hGet, hHas, -, -⟩
  exact ⟨versions, hGet, hHas⟩

end Tracking

------------------------------------------------------------
-- The Passes
------------------------------------------------------------

section Passes

variable {nodes : List ConflictNode} {walked : Nat}
variable {dispositions : List Disposition}

variable {state : AmbiguityWalk} {node : ConflictNode}
variable {versions : List (Option NuGetVersion)}
variable {ambiguous : List (Option PackageId)} {visited : List Nat}
variable {tracked : Tracked} {F : Type}

theorem childrenOf_eq
    (hNode : nodes[i]? = some node) :
    childrenOf nodes i = node.children := by
  unfold childrenOf
  rw [hNode]

theorem map_fst_tag
    (xs : List Nat)
    (f : F) :
    (xs.map fun c => (c, f)).map Prod.fst = xs := by
  rw [List.map_map]
  exact List.map_id xs

theorem mem_tagged
    {xs : List Nat}
    {f : F}
    {entry : Nat × F}
    (hMem : entry ∈ (xs.map fun c => (c, f)).reverse) :
    entry.1 ∈ xs ∧ entry.2 = f := by
  rw [List.mem_reverse] at hMem
  rcases List.mem_map.1 hMem with ⟨c, hC, rfl⟩
  exact ⟨hC, rfl⟩

/- Every node that was met is visited or on the stack. -/
structure Covers
    (nodes : List ConflictNode)
    (visited stack : List Nat) :
    Prop where
  root : 0 ∈ visited ∨ 0 ∈ stack
  children : ∀ i ∈ visited, ∀ c ∈ childrenOf nodes i,
    c ∈ visited ∨ c ∈ stack

theorem Covers.next
    {visited stack pushed : List Nat}
    (hCovers : Covers nodes visited (i :: stack))
    (hPushed : ∀ c ∈ childrenOf nodes i, c ∈ pushed) :
    Covers nodes (i :: visited) (pushed.reverse ++ stack) := by
  have hMoved : ∀ c, c ∈ visited ∨ c ∈ i :: stack →
      c ∈ i :: visited ∨ c ∈ pushed.reverse ++ stack := by
    rintro c (hVisited | hStack)
    · exact Or.inl (List.mem_cons_of_mem _ hVisited)
    · rcases List.mem_cons.1 hStack with hHere | hLater
      · exact Or.inl (List.mem_cons.2 (Or.inl hHere))
      · exact Or.inr (List.mem_append_right _ hLater)
  constructor
  · exact hMoved 0 hCovers.root
  · intro j hVisited c hChild
    rcases List.mem_cons.1 hVisited with hHere | hBefore
    · rw [hHere] at hChild
      exact Or.inr (List.mem_append_left _
        (List.mem_reverse.2 (hPushed c hChild)))
    · exact hMoved c (hCovers.children j hBefore c hChild)

/- With nothing on the stack every node has been visited. -/
theorem Covers.all
    (hForest : Forest nodes.length (childrenOf nodes))
    (hCovered : ∀ c, 0 < c → c < nodes.length →
      ∃ p, c ∈ childrenOf nodes p)
    (hCovers : Covers nodes visited [])
    {c : Nat}
    (hLt : c < nodes.length) :
    c ∈ visited := by
  induction c using Nat.strongRecOn with
  | _ c ih =>
      by_cases hRoot : c = 0
      · rw [hRoot]
        rcases hCovers.root with hVisited | hStack
        · exact hVisited
        · cases hStack
      · rcases hCovered c (Nat.pos_of_ne_zero hRoot) hLt with
          ⟨p, hChild⟩
        have hAfter := hForest.after p c hChild
        have hParent := ih p hAfter.1 (Nat.lt_trans hAfter.1 hLt)
        rcases hCovers.children p hParent c hChild with hVisited | hStack
        · exact hVisited
        · cases hStack

/- What the first pass keeps. -/
structure Rejecting
    (nodes : List ConflictNode)
    (walked : Nat)
    (visited : List Nat)
    (stack : List (Nat × Bool))
    (state : List Disposition × Tracked) :
    Prop where
  settling : Settling nodes walked state.1
  live : ∀ entry ∈ stack, entry.1 < walked → entry.2 = true
  tracked : TrackedFrom nodes state.2
  has : ∀ i ∈ visited, i < walked → ∀ node : ConflictNode,
    nodes[i]? = some node → HasTracked state.2 node
  covers : Covers nodes visited (stack.map Prod.fst)

theorem rejectVisit_rejecting
    {live : Bool}
    {stack : List (Nat × Bool)}
    {state : List Disposition × Tracked}
    (hArena : Arena nodes walked)
    (hLt : i < nodes.length)
    (hRejecting : Rejecting nodes walked visited ((i, live) :: stack)
      state) :
    ∃ state' pushed,
      rejectVisit nodes i live state = .ok (state', pushed) ∧
      (pushed.map Prod.fst).Sublist (childrenOf nodes i) ∧
      Rejecting nodes walked (i :: visited) (pushed.reverse ++ stack)
        state' := by
  rcases state with ⟨dispositions, tracked⟩
  have hSettling : Settling nodes walked dispositions :=
    hRejecting.settling
  have hLt' : i < dispositions.length := by
    rw [hSettling.length]
    exact hLt
  have hNode := List.getElem?_eq_getElem hLt
  have hDisposition := List.getElem?_eq_getElem hLt'
  generalize nodes[i] = node at hNode
  generalize dispositions[i] = disposition at hDisposition
  have hChildren := childrenOf_eq hNode
  have hCovers : ∀ f : Bool, Covers nodes (i :: visited)
      (((node.children.map fun c => (c, f)).reverse ++ stack).map
        Prod.fst) := by
    intro f
    rw [List.map_append, List.map_reverse, map_fst_tag]
    apply hRejecting.covers.next
    intro c hChild
    rw [hChildren] at hChild
    exact hChild
  have hSublist : ∀ f : Bool,
      ((node.children.map fun c => (c, f)).map Prod.fst).Sublist
        (childrenOf nodes i) := by
    intro f
    rw [map_fst_tag, hChildren]
  unfold rejectVisit
  dsimp only
  rw [hNode, hDisposition]
  dsimp only
  by_cases hAlive : (live && disposition != .Rejected) = true
  · rw [if_pos hAlive]
    refine ⟨_, _, rfl, hSublist true, hSettling, ?_,
      track_from hRejecting.tracked hNode, ?_, hCovers true⟩
    · intro entry hMem hWalked
      rcases List.mem_append.1 hMem with hNew | hOld
      · exact (mem_tagged hNew).2
      · exact hRejecting.live entry (List.mem_cons_of_mem _ hOld) hWalked
    · intro j hMem hWalked other hOther
      rcases List.mem_cons.1 hMem with hHere | hBefore
      · rw [hHere, hNode] at hOther
        cases hOther
        exact hasTracked_self
      · exact (hRejecting.has j hBefore hWalked other hOther).track
  · rw [if_neg hAlive]
    -- only a loser can be dead, and a loser has no children
    have hLoser : walked ≤ i := by
      by_contra hWalked
      rw [Nat.not_le] at hWalked
      apply hAlive
      have hTrue : live = true :=
        hRejecting.live (i, live) List.mem_cons_self hWalked
      have hKept := hSettling.kept i hWalked
      rw [hDisposition] at hKept
      rw [hTrue, Bool.true_and, bne_iff_ne]
      intro hRejected
      exact hKept (congrArg some hRejected)
    have hLeaf := hArena.leaf i node hNode hLoser
    refine ⟨_, _, rfl, hSublist false, ?_, ?_, hRejecting.tracked, ?_,
      hCovers false⟩
    · apply hSettling.set
      · intro hWalked
        omega
      · intro _ hEq
        cases hEq
    · intro entry hMem hWalked
      rw [hLeaf] at hMem
      exact hRejecting.live entry (List.mem_cons_of_mem _ hMem) hWalked
    · intro j hMem hWalked other hOther
      rcases List.mem_cons.1 hMem with hHere | hBefore
      · omega
      · exact hRejecting.has j hBefore hWalked other hOther

/- The first pass tracks the version of every walked node. -/
theorem reject_pass
    (hArena : Arena nodes walked)
    (hSettling : Settling nodes walked dispositions) :
    ∃ dispositions' tracked,
      traverse (rejectVisit nodes) (nodes.length + 1) [(0, true)]
        (dispositions, SortedMap.empty) = .ok (dispositions', tracked) ∧
      Settling nodes walked dispositions' ∧
      TrackedFrom nodes tracked ∧
      ∀ (i : Nat) (node : ConflictNode), i < walked →
        nodes[i]? = some node → HasTracked tracked node := by
  have hPos : 0 < nodes.length :=
    Nat.lt_of_lt_of_le hArena.pos hArena.le
  have hStart : Rejecting nodes walked [] [(0, true)]
      (dispositions, SortedMap.empty) := by
    refine ⟨hSettling, ?_, ?_, ?_, ?_, ?_⟩
    · intro entry hMem _
      rw [List.mem_singleton.1 hMem]
    · intro id versions hGet
      cases hGet
    · intro i hMem
      cases hMem
    · exact Or.inr (List.mem_singleton.2 rfl)
    · intro i hMem
      cases hMem
  have hRun := traverse_run (Rejecting nodes walked) hArena.forest hPos
    (fun visited i live stack state hLt hRejecting =>
      rejectVisit_rejecting hArena hLt hRejecting) hStart
  rcases hRun with ⟨visited, ⟨dispositions', tracked⟩, hTraverse, hEnd, -⟩
  refine ⟨dispositions', tracked, hTraverse, hEnd.settling,
    hEnd.tracked, ?_⟩
  intro i node hWalked hNode
  have hLt := Nat.lt_of_lt_of_le hWalked hArena.le
  exact hEnd.has i (hEnd.covers.all hArena.forest hArena.covered hLt) hWalked node hNode

theorem ambiguousVisit_pushes
    (hNode : nodes[i]? = some node)
    (hLt : i < dispositions.length) :
    ∃ ambiguous' next,
      ambiguousVisit nodes dispositions tracked i state ambiguous =
        .ok (ambiguous', node.children.map fun c => (c, next)) ∧
      (ambiguous' = ambiguous ∨
        state = .Ambiguous ∧ ambiguous' = node.id :: ambiguous) := by
  unfold ambiguousVisit
  rw [hNode, List.getElem?_eq_getElem hLt]
  dsimp only
  by_cases hRejected : dispositions[i] = .Rejected
  · rw [if_pos hRejected]
    exact ⟨ambiguous, .Rejected, rfl, Or.inl rfl⟩
  · rw [if_neg hRejected]
    by_cases hDisputed :
        state = .Walking ∧ disputed tracked node.id = true
    · rw [if_pos hDisputed]
      exact ⟨ambiguous, .Ambiguous, rfl, Or.inl rfl⟩
    · rw [if_neg hDisputed]
      by_cases hAmbiguous : state = .Ambiguous
      · rw [if_pos hAmbiguous]
        exact ⟨_, state, rfl, Or.inr ⟨hAmbiguous, rfl⟩⟩
      · rw [if_neg hAmbiguous]
        exact ⟨ambiguous, state, rfl, Or.inl rfl⟩

/- What the second pass keeps. -/
structure Marking
    (stack : List (Nat × AmbiguityWalk))
    (ambiguous : List (Option PackageId)) :
    Prop where
  root : none ∉ ambiguous
  walking : ∀ entry ∈ stack, entry.1 = 0 → entry.2 = .Walking

theorem ambiguousVisit_marking
    (tracked : Tracked)
    {stack : List (Nat × AmbiguityWalk)}
    (hArena : Arena nodes walked)
    (hSettling : Settling nodes walked dispositions)
    (hLt : i < nodes.length)
    (hMarking : Marking ((i, state) :: stack) ambiguous) :
    ∃ ambiguous' pushed,
      ambiguousVisit nodes dispositions tracked i state ambiguous =
        .ok (ambiguous', pushed) ∧
      (pushed.map Prod.fst).Sublist (childrenOf nodes i) ∧
      Marking (pushed.reverse ++ stack) ambiguous' := by
  have hNode := List.getElem?_eq_getElem hLt
  generalize nodes[i] = node at hNode
  have hLt' : i < dispositions.length := by
    rw [hSettling.length]
    exact hLt
  have hVisit : ∃ ambiguous' next,
      ambiguousVisit nodes dispositions tracked i state ambiguous =
        .ok (ambiguous', node.children.map fun c => (c, next)) ∧
      (ambiguous' = ambiguous ∨
        state = .Ambiguous ∧ ambiguous' = node.id :: ambiguous) :=
    ambiguousVisit_pushes hNode hLt'
  rcases hVisit with ⟨ambiguous', next, hOk, hCases⟩
  refine ⟨ambiguous', _, hOk, ?_, ?_, ?_⟩
  · rw [map_fst_tag, childrenOf_eq hNode]
  · rcases hCases with hSame | ⟨hState, hAdded⟩
    · rw [hSame]
      exact hMarking.root
    · rw [hAdded]
      intro hMem
      rcases List.mem_cons.1 hMem with hHere | hBefore
      · have hZero : i ≠ 0 := by
          intro hZero
          have hWalking :=
            hMarking.walking (i, state) List.mem_cons_self hZero
          rw [hState] at hWalking
          cases hWalking
        exact hArena.inner i node hNode hZero hHere.symm
      · exact hMarking.root hBefore
  · intro entry hMem hZero
    rcases List.mem_append.1 hMem with hNew | hOld
    · have hChild := (mem_tagged hNew).1
      rw [← childrenOf_eq hNode] at hChild
      have hAfter := hArena.forest.after i entry.1 hChild
      omega
    · exact hMarking.walking entry (List.mem_cons_of_mem _ hOld) hZero

/- The root is never ambiguous. -/
theorem ambiguous_pass
    (tracked : Tracked)
    (hArena : Arena nodes walked)
    (hSettling : Settling nodes walked dispositions) :
    ∃ ambiguous,
      traverse (ambiguousVisit nodes dispositions tracked)
        (nodes.length + 1) [(0, .Walking)] [] = .ok ambiguous ∧
      none ∉ ambiguous := by
  have hPos : 0 < nodes.length :=
    Nat.lt_of_lt_of_le hArena.pos hArena.le
  have hStart : Marking [(0, .Walking)] [] := by
    refine ⟨List.not_mem_nil, ?_⟩
    intro entry hMem _
    rw [List.mem_singleton.1 hMem]
  have hRun := traverse_run (fun _ => Marking) hArena.forest hPos
    (fun visited i state stack ambiguous hLt hMarking =>
      ambiguousVisit_marking tracked hArena hSettling hLt
        hMarking) hStart
  rcases hRun with ⟨visited, ambiguous, hTraverse, hEnd, -⟩
  exact ⟨ambiguous, hTraverse, hEnd.root⟩

/- A walked node is accepted and a loser rejected. -/
theorem decideNode_walked
    (hArena : Arena nodes walked)
    (hFrom : TrackedFrom nodes tracked)
    (hNode : nodes[i]? = some node)
    (hWalked : i < walked)
    (hGet : tracked.get node.id = some versions) :
    decideNode versions node.version = .Accepted := by
  unfold decideNode
  apply if_pos
  rw [List.all_eq_true]
  intro v hMem
  rcases hFrom node.id versions hGet v hMem with
    ⟨j, other, hOther, hId, rfl⟩
  exact hArena.best i j node other hNode hWalked hOther hId

theorem decideNode_loser
    (hArena : Arena nodes walked)
    (hHas : ∀ (i : Nat) (node : ConflictNode), i < walked →
      nodes[i]? = some node → HasTracked tracked node)
    (hNode : nodes[i]? = some node)
    (hLoser : walked ≤ i)
    (hGet : tracked.get node.id = some versions) :
    decideNode versions node.version = .Rejected := by
  rcases hArena.beaten i node hNode hLoser with
    ⟨j, winner, hWalked, hWinner, hId, hBelow⟩
  rcases hHas j winner hWalked hWinner with
    ⟨versions', hGet', v, hMem, hEq⟩
  rw [hId, hGet] at hGet'
  cases hGet'
  unfold decideNode
  apply if_neg
  intro hAll
  have hGe := List.all_eq_true.1 hAll v hMem
  rw [← versionGe_congr hEq, hBelow] at hGe
  cases hGe

theorem tracked_some
    (hArena : Arena nodes walked)
    (hHas : ∀ (i : Nat) (node : ConflictNode), i < walked →
      nodes[i]? = some node → HasTracked tracked node)
    (hNode : nodes[i]? = some node) :
    ∃ versions, tracked.get node.id = some versions := by
  rcases Nat.lt_or_ge i walked with hWalked | hLoser
  · rcases hHas i node hWalked hNode with ⟨versions, hGet, -⟩
    exact ⟨versions, hGet⟩
  · rcases hArena.beaten i node hNode hLoser with
      ⟨j, winner, hWalked, hWinner, hId, -⟩
    rcases hHas j winner hWalked hWinner with ⟨versions, hGet, -⟩
    rw [← hId]
    exact ⟨versions, hGet⟩

/- What the last pass keeps. -/
structure Deciding
    (nodes : List ConflictNode)
    (walked : Nat)
    (visited : List Nat)
    (stack : List (Nat × Unit))
    (dispositions : List Disposition) :
    Prop where
  settling : Settling nodes walked dispositions
  root : 0 ∈ visited ∨ 0 ∈ stack.map Prod.fst
  accepted : 0 ∈ visited → dispositions[0]? = some .Accepted

theorem decideVisit_deciding
    {stack : List (Nat × Unit)}
    (hArena : Arena nodes walked)
    (hFrom : TrackedFrom nodes tracked)
    (hHas : ∀ (i : Nat) (node : ConflictNode), i < walked →
      nodes[i]? = some node → HasTracked tracked node)
    (hNone : none ∉ ambiguous)
    (hLt : i < nodes.length)
    (hDeciding : Deciding nodes walked visited ((i, ()) :: stack)
      dispositions) :
    ∃ dispositions' pushed,
      decideVisit nodes tracked ambiguous i () dispositions =
        .ok (dispositions', pushed) ∧
      (pushed.map Prod.fst).Sublist (childrenOf nodes i) ∧
      Deciding nodes walked (i :: visited) (pushed.reverse ++ stack)
        dispositions' := by
  have hSettling := hDeciding.settling
  have hLt' : i < dispositions.length := by
    rw [hSettling.length]
    exact hLt
  have hNode := List.getElem?_eq_getElem hLt
  have hDisposition := List.getElem?_eq_getElem hLt'
  generalize nodes[i] = node at hNode
  generalize dispositions[i] = disposition at hDisposition
  have hChildren := childrenOf_eq hNode
  have hRoot : ∀ pushed : List (Nat × Unit),
      0 ∈ i :: visited ∨ 0 ∈ (pushed.reverse ++ stack).map Prod.fst := by
    intro pushed
    rcases hDeciding.root with hVisited | hStack
    · exact Or.inl (List.mem_cons_of_mem _ hVisited)
    · rcases List.mem_cons.1 hStack with hHere | hLater
      · exact Or.inl (List.mem_cons.2 (Or.inl hHere))
      · rw [List.map_append]
        exact Or.inr (List.mem_append_right _ hLater)
  have hSublist : ((node.children.map fun c => (c, ())).map
      Prod.fst).Sublist (childrenOf nodes i) := by
    rw [map_fst_tag, hChildren]
  -- the root stays accepted when another node is visited
  have hKeep : i ≠ 0 → 0 ∈ i :: visited →
      dispositions[0]? = some .Accepted := by
    intro hNe hMem
    rcases List.mem_cons.1 hMem with hHere | hBefore
    · exact absurd hHere.symm hNe
    · exact hDeciding.accepted hBefore
  unfold decideVisit
  rw [hNode, hDisposition]
  dsimp only
  by_cases hSkip : disposition = .Rejected ∨ node.id ∈ ambiguous
  · rw [if_pos hSkip]
    refine ⟨dispositions, [], rfl, List.nil_sublist _, hSettling,
      hRoot [], ?_⟩
    apply hKeep
    rintro rfl
    rcases hSkip with hRejected | hAmbiguous
    · apply hSettling.kept 0 hArena.pos
      rw [hDisposition, hRejected]
    · rw [(hArena.root node hNode).1] at hAmbiguous
      exact hNone hAmbiguous
  · rw [if_neg hSkip]
    by_cases hUndecided : disposition = .Acceptable
    · rw [if_pos hUndecided]
      rcases tracked_some hArena hHas hNode with ⟨versions, hGet⟩
      rw [hGet]
      dsimp only
      refine ⟨_, _, rfl, ?_, ?_, hRoot _, ?_⟩
      · split
        · exact hSublist
        · exact List.nil_sublist _
      · apply hSettling.set
        · intro hWalked
          rw [decideNode_walked hArena hFrom hNode hWalked hGet]
          intro hEq
          cases hEq
        · intro hLoser
          rw [decideNode_loser hArena hHas hNode hLoser hGet]
          intro hEq
          cases hEq
      · intro hMem
        rw [List.getElem?_set]
        by_cases hZero : i = 0
        · subst hZero
          rw [if_pos rfl, if_pos hLt',
            decideNode_walked hArena hFrom hNode hArena.pos hGet]
        · rw [if_neg hZero]
          exact hKeep hZero hMem
    · rw [if_neg hUndecided]
      refine ⟨dispositions, _, rfl, hSublist, hSettling, hRoot _, ?_⟩
      intro hMem
      by_cases hZero : i = 0
      · subst hZero
        rw [hDisposition]
        cases disposition with
        | Acceptable =>
            exact absurd rfl hUndecided
        | Accepted =>
            rfl
        | Rejected =>
            exact absurd (Or.inl rfl) hSkip
      · exact hKeep hZero hMem

/- A round keeps the walked nodes and accepts the root. -/
theorem conflictRound_settling
    (hArena : Arena nodes walked)
    (hSettling : Settling nodes walked dispositions) :
    ∃ dispositions',
      conflictRound nodes dispositions = .ok dispositions' ∧
      Settling nodes walked dispositions' ∧
      dispositions'[0]? = some .Accepted := by
  have hPos : 0 < nodes.length :=
    Nat.lt_of_lt_of_le hArena.pos hArena.le
  rcases reject_pass hArena hSettling with
    ⟨after, tracked, hReject, hSettling', hFrom, hHas⟩
  rcases ambiguous_pass tracked hArena hSettling' with
    ⟨ambiguous, hAmbiguous, hNone⟩
  have hStart : Deciding nodes walked [] [(0, ())] after := by
    refine ⟨hSettling', Or.inr (List.mem_singleton.2 rfl), ?_⟩
    intro hMem
    cases hMem
  have hRun := traverse_run (Deciding nodes walked) hArena.forest hPos
    (fun visited i u stack state hLt hDeciding =>
      decideVisit_deciding hArena hFrom hHas hNone hLt hDeciding) hStart
  rcases hRun with ⟨visited, final, hDecide, hEnd, -⟩
  refine ⟨final, ?_, hEnd.settling, ?_⟩
  · unfold conflictRound
    dsimp only
    rw [hReject]
    dsimp only [bind, Except.bind]
    rw [hAmbiguous]
    exact hDecide
  · apply hEnd.accepted
    rcases hEnd.root with hVisited | hStack
    · exact hVisited
    · cases hStack

theorem settleRounds_keep
    {rounds : Nat}
    (hArena : Arena nodes walked)
    (hSettling : Settling nodes walked dispositions)
    (hRoot : dispositions[0]? = some .Accepted) :
    ∃ dispositions',
      settleRounds nodes rounds dispositions = .ok dispositions' ∧
      Settling nodes walked dispositions' ∧
      dispositions'[0]? = some .Accepted := by
  induction rounds generalizing dispositions with
  | zero =>
      exact ⟨dispositions, rfl, hSettling, hRoot⟩
  | succ rounds ih =>
      unfold settleRounds
      split
      · exact ⟨dispositions, rfl, hSettling, hRoot⟩
      · rcases conflictRound_settling hArena hSettling with
          ⟨next, hRound, hSettling', hRoot'⟩
        rw [hRound]
        dsimp only
        split
        · exact ⟨next, rfl, hSettling', hRoot'⟩
        · exact ih hSettling' hRoot'

/- The rounds end, and the root is accepted by the first. -/
theorem settleRounds_settling
    (rounds : Nat)
    (hArena : Arena nodes walked) :
    ∃ dispositions,
      settleRounds nodes (rounds + 1)
        (List.replicate nodes.length .Acceptable) = .ok dispositions ∧
      Settling nodes walked dispositions ∧
      dispositions[0]? = some .Accepted := by
  have hPos : 0 < nodes.length :=
    Nat.lt_of_lt_of_le hArena.pos hArena.le
  have hFirst : Disposition.Acceptable ∈
      List.replicate nodes.length Disposition.Acceptable :=
    List.mem_replicate.2 ⟨Nat.ne_of_gt hPos, rfl⟩
  rcases conflictRound_settling hArena (Settling.start nodes walked) with
    ⟨next, hRound, hSettling, hRoot⟩
  unfold settleRounds
  rw [if_neg (not_not_intro hFirst), hRound]
  dsimp only
  split
  · exact ⟨next, rfl, hSettling, hRoot⟩
  · exact settleRounds_keep hArena hSettling hRoot

end Passes

end NuGet

end Borzoi
