import Borzoi.NuGet.ConflictOrder
import Mathlib.Logic.Relation

/-
  What the conflict rounds keep, and why they end.

  A round never takes a rejection back, and takes an acceptance back only
  below a node that is not accepted.  Where the parent of every accepted
  node is accepted, as where nothing is decided, every decision stands.

  Main declarations:
    * `Upward`
    * `Rounds`
    * `conflictRound_keeps`
    * `conflict_rounds_settle`
-/

namespace Borzoi

namespace NuGet

open Traversal

/- The parent of every accepted node is accepted. -/
def Upward
    (nodes : List ConflictNode)
    (dispositions : List Disposition) :
    Prop :=
  ∀ p c, c ∈ childrenOf nodes p → dispositions[c]? = some .Accepted →
    dispositions[p]? = some .Accepted

/- Every decision of the first stands in the second. -/
def Keeps
    (dispositions later : List Disposition) :
    Prop :=
  ∀ (i : Nat) (d : Disposition), dispositions[i]? = some d →
    d ≠ .Acceptable → later[i]? = some d

/- The states that some rounds lead to. -/
def Rounds
    (nodes : List ConflictNode) :
    List Disposition → List Disposition → Prop :=
  Relation.ReflTransGen fun before after =>
    conflictRound nodes before = .ok after

/- How far a disposition is from undecided. -/
def Disposition.weight :
    Disposition → Nat
  | .Acceptable => 0
  | .Accepted => 1
  | .Rejected => 2

/- No disposition goes back towards undecided. -/
structure Raises
    (dispositions later : List Disposition) :
    Prop where
  length : later.length = dispositions.length
  weight : ∀ (i : Nat) (d d' : Disposition), dispositions[i]? = some d →
    later[i]? = some d' → d.weight ≤ d'.weight

def totalWeight
    (dispositions : List Disposition) :
    Nat :=
  (dispositions.map Disposition.weight).sum

theorem Disposition.weight_le
    (d : Disposition) :
    d.weight ≤ 2 := by
  cases d with
  | Acceptable => exact Nat.zero_le 2
  | Accepted => exact Nat.le_succ 1
  | Rejected => exact Nat.le_refl 2

theorem Disposition.weight_inj
    {d d' : Disposition}
    (hWeight : d.weight = d'.weight) :
    d = d' := by
  cases d with
  | Acceptable =>
      cases d' with
      | Acceptable => rfl
      | Accepted => cases hWeight
      | Rejected => cases hWeight
  | Accepted =>
      cases d' with
      | Acceptable => cases hWeight
      | Accepted => rfl
      | Rejected => cases hWeight
  | Rejected =>
      cases d' with
      | Acceptable => cases hWeight
      | Accepted => cases hWeight
      | Rejected => rfl

variable {d : Disposition}

section Decisions

variable {nodes : List ConflictNode}
variable {dispositions later last : List Disposition}

theorem Keeps.refl :
    Keeps dispositions dispositions :=
  fun _ _ hGet _ => hGet

theorem Keeps.trans
    (hFirst : Keeps dispositions later)
    (hSecond : Keeps later last) :
    Keeps dispositions last :=
  fun i d hGet hDecided => hSecond i d (hFirst i d hGet hDecided) hDecided

variable {next : Disposition} {i : Nat}

theorem Keeps.set
    (hHere : dispositions[i]? = some d)
    (hNext : next = d ∨ d = .Acceptable) :
    Keeps dispositions (dispositions.set i next) := by
  intro j d' hGet hDecided
  rcases hNext with hSame | hUndecided
  · rw [hSame, set_same hHere]
    exact hGet
  · have hApart : i ≠ j := by
      intro hSame
      rw [← hSame, hHere, hUndecided] at hGet
      exact hDecided (Option.some.inj hGet).symm
    rw [List.getElem?_set_ne hApart]
    exact hGet

theorem Raises.refl :
    Raises dispositions dispositions := by
  refine ⟨rfl, ?_⟩
  intro i d d' hGet hGet'
  rw [hGet] at hGet'
  cases hGet'
  exact Nat.le_refl _

theorem Raises.trans
    (hFirst : Raises dispositions later)
    (hSecond : Raises later last) :
    Raises dispositions last := by
  refine ⟨hSecond.length.trans hFirst.length, ?_⟩
  intro i d d'' hGet hGet''
  have hLt := (List.getElem?_eq_some_iff.1 hGet).1
  have hLt' : i < later.length := by
    rw [hFirst.length]
    exact hLt
  have hGet' := List.getElem?_eq_getElem hLt'
  exact Nat.le_trans (hFirst.weight i d _ hGet hGet')
    (hSecond.weight i _ d'' hGet' hGet'')

theorem Raises.set
    (hHere : dispositions[i]? = some d)
    (hNext : d.weight ≤ next.weight) :
    Raises dispositions (dispositions.set i next) := by
  refine ⟨List.length_set, ?_⟩
  intro j d₁ d₂ hGet hGet'
  rw [List.getElem?_set] at hGet'
  split at hGet'
  · next hSame =>
      split at hGet'
      · rw [← hSame, hHere] at hGet
        cases hGet
        cases hGet'
        exact hNext
      · cases hGet'
  · rw [hGet] at hGet'
    cases hGet'
    exact Nat.le_refl _

/- A state that raises another and is not it weighs more. -/
theorem Raises.totalWeight
    (hRaises : Raises dispositions later) :
    totalWeight dispositions ≤ totalWeight later ∧
      (totalWeight dispositions = totalWeight later →
        dispositions = later) := by
  induction dispositions generalizing later with
  | nil =>
      have hNil : later = [] := List.eq_nil_of_length_eq_zero hRaises.length
      rw [hNil]
      exact ⟨Nat.le_refl _, fun _ => rfl⟩
  | cons d rest ih =>
      cases later with
      | nil => cases hRaises.length
      | cons d' rest' =>
          have hHead : d.weight ≤ d'.weight :=
            hRaises.weight 0 d d' rfl rfl
          have hTail : Raises rest rest' := by
            refine ⟨Nat.succ.inj hRaises.length, ?_⟩
            intro i x y hX hY
            exact hRaises.weight (i + 1) x y hX hY
          rcases ih hTail with ⟨hLe, hEq⟩
          unfold NuGet.totalWeight at hLe hEq ⊢
          rw [List.map_cons, List.map_cons, List.sum_cons, List.sum_cons]
          constructor
          · omega
          · intro hSame
            have hHeads : d.weight = d'.weight := by omega
            rw [Disposition.weight_inj hHeads, hEq (by omega)]

theorem totalWeight_le
    (dispositions : List Disposition) :
    totalWeight dispositions ≤ 2 * dispositions.length := by
  induction dispositions with
  | nil => exact Nat.le_refl 0
  | cons d rest ih =>
      unfold totalWeight at ih ⊢
      rw [List.map_cons, List.sum_cons, List.length_cons]
      have hHead := d.weight_le
      omega

theorem upward_start
    (nodes : List ConflictNode) :
    Upward nodes (List.replicate nodes.length .Acceptable) := by
  intro p c _ hGet
  have hSame := List.eq_of_mem_replicate (List.mem_of_getElem? hGet)
  cases hSame

end Decisions

section Passes

variable {nodes : List ConflictNode} {tracked : Tracked}
variable {ambiguous : List (Option PackageId)}
variable {start rejected decided : List Disposition} {i : Nat}

/- What the first pass does to the dispositions that it starts from. -/
structure Rejects
    (nodes : List ConflictNode)
    (start : List Disposition)
    (state : List Disposition × Tracked) :
    Prop where
  length : state.1.length = nodes.length
  raises : Raises start state.1
  accepted : ∀ j : Nat, state.1[j]? = some .Accepted →
    start[j]? = some .Accepted

variable {dispositions : List Disposition} {state : List Disposition × Tracked}

theorem rejectVisit_rejects
    (live : Bool)
    (hLt : i < nodes.length)
    (hRejects : Rejects nodes start state) :
    ∃ (alive : Bool) (state' : List Disposition × Tracked)
        (node : ConflictNode) (disposition : Disposition),
      nodes[i]? = some node ∧ state.1[i]? = some disposition ∧
      (live && disposition != .Rejected) = alive ∧
      rejectVisit nodes i live state =
        .ok (state', node.children.map fun child => (child, alive)) ∧
      (state'.1 = if alive then state.1 else state.1.set i .Rejected) ∧
      Rejects nodes start state' := by
  rcases state with ⟨dispositions, tracked⟩
  have hLength : dispositions.length = nodes.length := hRejects.length
  rcases node_at hLength hLt with ⟨node, disposition, hNode, hHere⟩
  generalize hAlive : (live && disposition != .Rejected) = alive
  refine ⟨alive, _, node, disposition, hNode, hHere, hAlive,
    rejectVisit_eq hNode hHere hAlive, rfl, ?_⟩
  cases alive with
  | true => exact ⟨hLength, hRejects.raises, hRejects.accepted⟩
  | false =>
      refine ⟨List.length_set.trans hLength, ?_, ?_⟩
      · exact hRejects.raises.trans (.set hHere disposition.weight_le)
      · intro j hGet
        have hSet : (dispositions.set i .Rejected)[j]? =
            some .Accepted := hGet
        rw [List.getElem?_set] at hSet
        split at hSet
        · split at hSet
          · cases hSet
          · cases hSet
        · exact hRejects.accepted j hSet

theorem reject_raises
    (hGraph : WalkedGraph nodes)
    (hLength : start.length = nodes.length)
    (hReject : traverse (rejectVisit nodes) (nodes.length + 1) [(0, true)]
      (start, SortedMap.empty) = .ok (rejected, tracked)) :
    Rejects nodes start (rejected, tracked) := by
  have hStart : Rejects nodes start (start, SortedMap.empty) :=
    ⟨hLength, .refl, fun _ hGet => hGet⟩
  have hVisit : ∀ (visited : List Nat) (i : Nat) (live : Bool)
      (stack : List (Nat × Bool)) (state : List Disposition × Tracked),
      i < nodes.length → Rejects nodes start state →
      ∃ state' pushed, rejectVisit nodes i live state =
          .ok (state', pushed) ∧
        (pushed.map Prod.fst).Sublist (childrenOf nodes i) ∧
        Rejects nodes start state' := by
    intro _ i live _ state hLt hRejects
    rcases rejectVisit_rejects live hLt hRejects with
      ⟨alive, state', node, -, hNode, -, -, hOk, -, hRejects'⟩
    refine ⟨state', _, hOk, ?_, hRejects'⟩
    rw [map_fst_tag, childrenOf_eq hNode]
  have hRun := traverse_run (fun _ _ => Rejects nodes start)
    hGraph.forest hGraph.pos hVisit (f := true) hStart
  rcases hRun with ⟨-, state, hTraverse, hEnd, -⟩
  rw [hReject] at hTraverse
  cases hTraverse
  exact hEnd

/- Nothing below a rejected node was accepted. -/
structure RejectsBelow
    (nodes : List ConflictNode)
    (start : List Disposition)
    (stack : List (Nat × Bool))
    (state : List Disposition × Tracked) :
    Prop where
  rejects : Rejects nodes start state
  keeps : Keeps start state.1
  dead : ∀ entry ∈ stack, entry.2 = false →
    start[entry.1]? ≠ some .Accepted

theorem rejectVisit_keeps
    {live : Bool}
    {stack : List (Nat × Bool)}
    (hUpward : Upward nodes start)
    (hLt : i < nodes.length)
    (hBelow : RejectsBelow nodes start ((i, live) :: stack) state) :
    ∃ state' pushed,
      rejectVisit nodes i live state = .ok (state', pushed) ∧
      (pushed.map Prod.fst).Sublist (childrenOf nodes i) ∧
      RejectsBelow nodes start (pushed.reverse ++ stack) state' := by
  rcases rejectVisit_rejects live hLt hBelow.rejects with
    ⟨alive, state', node, disposition, hNode, hHere, hAlive, hOk, hState,
      hRejects⟩
  refine ⟨state', _, hOk, ?_, hRejects, ?_, ?_⟩
  · rw [map_fst_tag, childrenOf_eq hNode]
  all_goals
    -- a node that is rejected now was not accepted at the start
    have hDead : alive = false → start[i]? ≠ some .Accepted := by
      intro hFalse hAccepted
      rw [hFalse] at hAlive
      have hStands := hBelow.keeps i .Accepted hAccepted
        Disposition.noConfusion
      rw [hHere] at hStands
      cases hStands
      cases live with
      | true => cases hAlive
      | false => exact hBelow.dead (i, false) List.mem_cons_self rfl hAccepted
  · rw [hState]
    cases alive with
    | true => exact hBelow.keeps
    | false =>
        intro j d hGet hDecided
        have hStands := hBelow.keeps j d hGet hDecided
        by_cases hSame : i = j
        · subst hSame
          rw [hHere] at hStands
          cases hStands
          have hRejected : disposition = .Rejected := by
            cases disposition with
            | Acceptable => exact absurd rfl hDecided
            | Accepted => exact absurd hGet (hDead rfl)
            | Rejected => rfl
          rw [hRejected] at hHere
          rw [if_neg Bool.false_ne_true, set_same hHere, hRejected]
          exact hHere
        · rw [if_neg Bool.false_ne_true, List.getElem?_set_ne hSame]
          exact hStands
  · intro entry hMem hFalse
    rcases List.mem_append.1 hMem with hNew | hOld
    · rcases mem_tagged hNew with ⟨hChild, hTag⟩
      intro hAccepted
      rw [← childrenOf_eq hNode] at hChild
      exact hDead (hTag.symm.trans hFalse)
        (hUpward i entry.1 hChild hAccepted)
    · exact hBelow.dead entry (List.mem_cons_of_mem _ hOld) hFalse

theorem reject_keeps
    (hGraph : WalkedGraph nodes)
    (hLength : start.length = nodes.length)
    (hUpward : Upward nodes start)
    (hReject : traverse (rejectVisit nodes) (nodes.length + 1) [(0, true)]
      (start, SortedMap.empty) = .ok (rejected, tracked)) :
    Keeps start rejected ∧ Upward nodes rejected := by
  have hStart : RejectsBelow nodes start [(0, true)]
      (start, SortedMap.empty) := by
    refine ⟨⟨hLength, .refl, fun _ hGet => hGet⟩, .refl, ?_⟩
    intro entry hMem hFalse
    rw [List.mem_singleton.1 hMem] at hFalse
    cases hFalse
  have hRun := traverse_run (fun _ => RejectsBelow nodes start)
    hGraph.forest hGraph.pos
    (fun _ i live stack state hLt hBelow =>
      rejectVisit_keeps hUpward hLt hBelow) hStart
  rcases hRun with ⟨-, state, hTraverse, hEnd, -⟩
  rw [hReject] at hTraverse
  cases hTraverse
  refine ⟨hEnd.keeps, ?_⟩
  intro p c hChild hAccepted
  have hBefore := hEnd.rejects.accepted c hAccepted
  exact hEnd.keeps p .Accepted (hUpward p c hChild hBefore)
    Disposition.noConfusion

------------------------------------------------------------
-- The Last Pass
------------------------------------------------------------

/- What the last pass does to the dispositions that it starts from. -/
structure DecidesBelow
    (nodes : List ConflictNode)
    (tracked : Tracked)
    (start dispositions : List Disposition) :
    Prop where
  decides : Decides nodes tracked dispositions
  keeps : Keeps start dispositions
  raises : Raises start dispositions

theorem decideVisit_keeps
    (ambiguous : List (Option PackageId))
    (hLt : i < nodes.length)
    (hBelow : DecidesBelow nodes tracked start dispositions) :
    ∃ disposition next pushed,
      dispositions[i]? = some disposition ∧
      decideVisit nodes tracked ambiguous i () dispositions =
        .ok (dispositions.set i next, pushed) ∧
      (next = disposition ∨ disposition = .Acceptable) ∧
      (pushed = [] ∨ next = .Accepted) ∧
      (pushed.map Prod.fst).Sublist (childrenOf nodes i) ∧
      DecidesBelow nodes tracked start (dispositions.set i next) := by
  have hDecides := hBelow.decides
  rcases node_at hDecides.length hLt with ⟨node, disposition, hNode, hHere⟩
  have hTracked : disposition = .Acceptable →
      (tracked.get node.id).isSome = true := by
    intro hUndecided
    rw [hUndecided] at hHere
    exact hDecides.tracked i node hNode hHere
  rcases decideVisit_eq ambiguous hNode disposition hTracked with
    ⟨next, pushed, hNext, hPushed, hVisit⟩
  have hNext' : next = disposition ∨ disposition = .Acceptable :=
    hNext.imp_right And.left
  have hWeight : disposition.weight ≤ next.weight := by
    rcases hNext' with hSame | hUndecided
    · exact Nat.le_of_eq (congrArg _ hSame.symm)
    · rw [hUndecided]
      exact Nat.zero_le _
  refine ⟨disposition, next, pushed, hHere, hVisit _ hHere, hNext',
    hPushed.imp_right And.left, ?_, ?_⟩
  · rcases hPushed with hNone | ⟨-, hAll⟩
    · rw [hNone]
      exact List.nil_sublist _
    · rw [hAll, map_fst_tag, childrenOf_eq hNode]
  · exact ⟨hDecides.set hHere hNext, hBelow.keeps.trans (.set hHere hNext'),
      hBelow.raises.trans (.set hHere hWeight)⟩

/- The nodes that are left have accepted parents. -/
structure Descends
    (nodes : List ConflictNode)
    (tracked : Tracked)
    (start : List Disposition)
    (stack : List (Nat × Unit))
    (dispositions : List Disposition) :
    Prop where
  below : DecidesBelow nodes tracked start dispositions
  upward : Upward nodes dispositions
  met : ∀ entry ∈ stack, ∀ p, entry.1 ∈ childrenOf nodes p →
    dispositions[p]? = some .Accepted

theorem decideVisit_descends
    (ambiguous : List (Option PackageId))
    {stack : List (Nat × Unit)}
    (hForest : Forest nodes.length (childrenOf nodes))
    (hLt : i < nodes.length)
    (hDescends : Descends nodes tracked start ((i, ()) :: stack)
      dispositions) :
    ∃ dispositions' pushed,
      decideVisit nodes tracked ambiguous i () dispositions =
        .ok (dispositions', pushed) ∧
      (pushed.map Prod.fst).Sublist (childrenOf nodes i) ∧
      Descends nodes tracked start (pushed.reverse ++ stack)
        dispositions' := by
  rcases decideVisit_keeps ambiguous hLt hDescends.below with
    ⟨disposition, next, pushed, hHere, hVisit, hNext, hPushed, hChildren,
      hBelow⟩
  have hKeeps : Keeps dispositions (dispositions.set i next) :=
    .set hHere hNext
  have hStays : ∀ p : Nat, dispositions[p]? = some Disposition.Accepted →
      (dispositions.set i next)[p]? = some Disposition.Accepted :=
    fun p hAccepted => hKeeps p .Accepted hAccepted Disposition.noConfusion
  refine ⟨_, pushed, hVisit, hChildren, hBelow, ?_, ?_⟩
  · intro p c hChild hAccepted
    apply hStays
    by_cases hSame : i = c
    · rw [← hSame] at hChild
      exact hDescends.met (i, ()) List.mem_cons_self p hChild
    · rw [List.getElem?_set_ne hSame] at hAccepted
      exact hDescends.upward p c hChild hAccepted
  · intro entry hMem p hChild
    rcases List.mem_append.1 hMem with hNew | hOld
    · rw [List.mem_reverse] at hNew
      have hMine : entry.1 ∈ childrenOf nodes i :=
        hChildren.subset (List.mem_map.2 ⟨entry, hNew, rfl⟩)
      rcases hPushed with hNone | hAccepted
      · rw [hNone] at hNew
        cases hNew
      · rw [← hForest.parent i p entry.1 hMine hChild, hAccepted]
        exact List.getElem?_set_self (List.getElem?_eq_some_iff.1 hHere).1
    · exact hStays p (hDescends.met entry (List.mem_cons_of_mem _ hOld) p
        hChild)

theorem decide_raises
    (hGraph : WalkedGraph nodes)
    (hDecides : Decides nodes tracked rejected)
    (hDecide : traverse (decideVisit nodes tracked ambiguous)
      (nodes.length + 1) [(0, ())] rejected = .ok decided) :
    Raises rejected decided := by
  have hStart : DecidesBelow nodes tracked rejected rejected :=
    ⟨hDecides, .refl, .refl⟩
  have hVisit : ∀ (visited : List Nat) (i : Nat) (u : Unit)
      (stack : List (Nat × Unit)) (state : List Disposition),
      i < nodes.length → DecidesBelow nodes tracked rejected state →
      ∃ state' pushed, decideVisit nodes tracked ambiguous i u state =
          .ok (state', pushed) ∧
        (pushed.map Prod.fst).Sublist (childrenOf nodes i) ∧
        DecidesBelow nodes tracked rejected state' := by
    intro _ i _ _ state hLt hBelow
    rcases decideVisit_keeps ambiguous hLt hBelow with
      ⟨-, next, pushed, -, hOk, -, -, hChildren, hBelow'⟩
    exact ⟨_, pushed, hOk, hChildren, hBelow'⟩
  have hRun := traverse_run
    (fun _ _ => DecidesBelow nodes tracked rejected)
    hGraph.forest hGraph.pos hVisit (f := ()) hStart
  rcases hRun with ⟨-, state, hTraverse, hEnd, -⟩
  rw [hDecide] at hTraverse
  cases hTraverse
  exact hEnd.raises

theorem decide_keeps
    (hGraph : WalkedGraph nodes)
    (hDecides : Decides nodes tracked rejected)
    (hUpward : Upward nodes rejected)
    (hDecide : traverse (decideVisit nodes tracked ambiguous)
      (nodes.length + 1) [(0, ())] rejected = .ok decided) :
    Keeps rejected decided ∧ Upward nodes decided := by
  have hStart : Descends nodes tracked rejected [(0, ())] rejected := by
    refine ⟨⟨hDecides, .refl, .refl⟩, hUpward, ?_⟩
    intro entry hMem p hChild
    rw [List.mem_singleton.1 hMem] at hChild
    have hAfter := hGraph.forest.after p 0 hChild
    omega
  have hRun := traverse_run
    (fun _ => Descends nodes tracked rejected) hGraph.forest hGraph.pos
    (fun _ i _ stack state hLt hDescends =>
      decideVisit_descends ambiguous hGraph.forest hLt hDescends) hStart
  rcases hRun with ⟨-, state, hTraverse, hEnd, -⟩
  rw [hDecide] at hTraverse
  cases hTraverse
  exact ⟨hEnd.below.keeps, hEnd.upward⟩

end Passes

section Rounds

variable {nodes : List ConflictNode} {dispositions later : List Disposition}

section

variable (hGraph : WalkedGraph nodes)

include hGraph

section

variable (hLength : dispositions.length = nodes.length)

include hLength

theorem conflictRound_raises
    (hRound : conflictRound nodes dispositions = .ok later) :
    Raises dispositions later := by
  rcases conflictRound_any_order hGraph hLength with
    ⟨rejected, tracked, ambiguous, decided, hReject, hDecides, hDecide,
      hOk, -⟩
  rw [hRound] at hOk
  cases hOk
  exact (reject_raises hGraph hLength hReject).raises.trans
    (decide_raises hGraph hDecides hDecide)

/- A round takes no decision back where acceptance goes upward. -/
theorem conflictRound_keeps
    (hUpward : Upward nodes dispositions)
    (hRound : conflictRound nodes dispositions = .ok later) :
    Keeps dispositions later ∧ Upward nodes later := by
  rcases conflictRound_any_order hGraph hLength with
    ⟨rejected, tracked, ambiguous, decided, hReject, hDecides, hDecide,
      hOk, -⟩
  rw [hRound] at hOk
  cases hOk
  rcases reject_keeps hGraph hLength hUpward hReject with
    ⟨hKeeps, hUpward'⟩
  rcases decide_keeps hGraph hDecides hUpward' hDecide with
    ⟨hKeeps', hUpward''⟩
  exact ⟨hKeeps.trans hKeeps', hUpward''⟩

theorem Rounds.raises
    (hRounds : Rounds nodes dispositions later) :
    Raises dispositions later := by
  induction hRounds with
  | refl => exact .refl
  | tail _ hRound ih =>
      exact ih.trans (conflictRound_raises hGraph
        (ih.length.trans hLength) hRound)

theorem Rounds.keeps
    (hUpward : Upward nodes dispositions)
    (hRounds : Rounds nodes dispositions later) :
    Keeps dispositions later ∧ Upward nodes later := by
  induction hRounds with
  | refl => exact ⟨.refl, hUpward⟩
  | tail hBefore hRound ih =>
      rcases ih with ⟨hKeeps, hUpward'⟩
      have hRaises := Rounds.raises hGraph hLength hBefore
      rcases conflictRound_keeps hGraph (hRaises.length.trans hLength)
        hUpward' hRound with ⟨hKeeps', hUpward''⟩
      exact ⟨hKeeps.trans hKeeps', hUpward''⟩

/- Every round but the last makes the state weigh more. -/
theorem settleRounds_ends :
    ∃ final, Rounds nodes dispositions final ∧
      (.Acceptable ∉ final ∨ conflictRound nodes final = .ok final) ∧
      ∀ rounds, 2 * nodes.length < rounds + totalWeight dispositions →
        settleRounds nodes rounds dispositions = .ok final := by
  induction hLeft : 2 * nodes.length - totalWeight dispositions
      using Nat.strongRecOn generalizing dispositions with
  | _ left ih =>
      have hFull := totalWeight_le dispositions
      rw [hLength] at hFull
      by_cases hUndecided : Disposition.Acceptable ∉ dispositions
      · refine ⟨dispositions, .refl, Or.inl hUndecided, ?_⟩
        intro rounds _
        cases rounds with
        | zero => rfl
        | succ rounds => rw [settleRounds, if_pos hUndecided]
      · rcases conflictRound_any_order hGraph hLength with
          ⟨-, -, -, next, -, -, -, hRound, -⟩
        have hRaises := conflictRound_raises hGraph hLength hRound
        by_cases hSame : next = dispositions
        · subst hSame
          refine ⟨next, .refl, Or.inr hRound, ?_⟩
          intro rounds hRounds
          cases rounds with
          | zero => omega
          | succ rounds =>
              rw [settleRounds, if_neg hUndecided, hRound]
              dsimp only
              rw [if_pos rfl]
        · have hNextLength := hRaises.length.trans hLength
          rcases hRaises.totalWeight with ⟨hLe, hEq⟩
          have hNextFull := totalWeight_le next
          rw [hNextLength] at hNextFull
          have hGrows : totalWeight dispositions < totalWeight next := by
            apply Nat.lt_of_le_of_ne hLe
            intro hWeight
            exact hSame (hEq hWeight).symm
          rcases ih _ (by omega) hNextLength rfl with
            ⟨final, hRounds, hFinal, hSettle⟩
          refine ⟨final, .head hRound hRounds, hFinal, ?_⟩
          intro rounds hEnough
          cases rounds with
          | zero => omega
          | succ rounds =>
              rw [settleRounds, if_neg hUndecided, hRound]
              dsimp only
              rw [if_neg hSame]
              exact hSettle rounds (by omega)

end

end

/-
  A round is the same in every order and the rounds end, whatever state
  they start from; a rejection stands, and every decision does where the
  parent of an accepted node is accepted, which the rounds keep.
-/
theorem conflict_rounds_settle
    (nodes : List ConflictNode)
    (dispositions : List Disposition)
    (hGraph : WalkedGraph nodes)
    (hLength : dispositions.length = nodes.length) :
    (∃ next, conflictRound nodes dispositions = .ok next ∧
      ∀ result, RoundAnyOrder nodes dispositions result ↔
        result = .ok next) ∧
    (∃ final, Rounds nodes dispositions final ∧
      (.Acceptable ∉ final ∨ conflictRound nodes final = .ok final) ∧
      ∀ rounds, 2 * nodes.length < rounds →
        settleRounds nodes rounds dispositions = .ok final) ∧
    (∀ later, Rounds nodes dispositions later →
      ∀ i : Nat, dispositions[i]? = some .Rejected →
        later[i]? = some .Rejected) ∧
    (Upward nodes dispositions →
      ∀ later, Rounds nodes dispositions later →
        Keeps dispositions later ∧ Upward nodes later) ∧
    Upward nodes (List.replicate nodes.length .Acceptable) := by
  refine ⟨?_, ?_, ?_, ?_, upward_start nodes⟩
  · rcases conflictRound_any_order hGraph hLength with
      ⟨-, -, -, next, -, -, -, hRound, hAny⟩
    exact ⟨next, hRound, hAny⟩
  · rcases settleRounds_ends hGraph hLength with
      ⟨final, hRounds, hFinal, hSettle⟩
    refine ⟨final, hRounds, hFinal, ?_⟩
    intro rounds hEnough
    exact hSettle rounds (by omega)
  · intro later hRounds i hGet
    have hRaises := hRounds.raises hGraph hLength
    have hLt : i < later.length := by
      rw [hRaises.length]
      exact (List.getElem?_eq_some_iff.1 hGet).1
    have hGet' := List.getElem?_eq_getElem hLt
    have hWeight := hRaises.weight i _ _ hGet hGet'
    rw [hGet']
    generalize later[i] = d at hWeight
    have hTop := d.weight_le
    exact congrArg some (Disposition.weight_inj (by
      exact Nat.le_antisymm hTop hWeight))
  · intro hUpward later hRounds
    exact hRounds.keeps hGraph hLength hUpward

end Rounds

/- A root without a name, and a package below it. -/
def rootAndChild :
    List ConflictNode :=
  [⟨none, none, [1]⟩, ⟨some ['a'], none, []⟩]

theorem rootAndChild_graph :
    WalkedGraph rootAndChild := by
  have hChildren : ∀ p c, c ∈ childrenOf rootAndChild p → p = 0 ∧ c = 1 := by
    intro p c hMem
    rcases p with _ | _ | p
    · exact ⟨rfl, List.mem_singleton.1 hMem⟩
    · cases hMem
    · cases hMem
  refine ⟨by decide, ⟨?_, ?_, ?_⟩, ?_⟩
  · intro i c hMem
    rcases hChildren i c hMem with ⟨rfl, rfl⟩
    decide
  · intro i
    rcases i with _ | _ | i
    · exact List.nodup_singleton 1
    · exact List.nodup_nil
    · exact List.nodup_nil
  · intro i j c hMem hMem'
    rw [(hChildren i c hMem).1, (hChildren j c hMem').1]
  · intro c hPos hLt
    have hOne : c = 1 := by
      have hTwo : c < 2 := hLt
      omega
    exact ⟨0, List.mem_singleton.2 hOne⟩

theorem conflict_rounds_settle_at :
    ∃ next, conflictRound rootAndChild [.Accepted, .Acceptable] = .ok next ∧
      next[0]? = some .Accepted := by
  have hSettle := conflict_rounds_settle rootAndChild
    [.Accepted, .Acceptable] rootAndChild_graph rfl
  rcases hSettle with ⟨⟨next, hRound, -⟩, -, -, hKeeps, -⟩
  have hUpward : Upward rootAndChild [.Accepted, .Acceptable] := by
    intro p c hMem hAccepted
    rcases p with _ | _ | p
    · rfl
    · cases hMem
    · cases hMem
  have hStands := (hKeeps hUpward next (.single hRound)).1
  exact ⟨next, hRound, hStands 0 .Accepted rfl Disposition.noConfusion⟩

/- A rejected node takes an acceptance below it back. -/
theorem conflict_round_takes_back :
    WalkedGraph rootAndChild ∧
      conflictRound rootAndChild [.Rejected, .Accepted] =
        .ok [.Rejected, .Rejected] :=
  ⟨rootAndChild_graph, by decide⟩

end NuGet

end Borzoi
