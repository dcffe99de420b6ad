import Borzoi.NuGet.ConflictsSound

/-
  The order of a conflict round, and what its rounds keep.

  A round visits a tree of walked nodes three times.  Two visits of one
  pass can be swapped, so a pass ends the same way in whatever order the
  entries met so far are taken.  Where the parent of every accepted node
  is accepted, no round takes a decision back.
-/

namespace Borzoi

namespace NuGet

open Traversal

/- The nodes that the walk hands over: a tree below the first one. -/
structure WalkedGraph
    (nodes : List ConflictNode) :
    Prop where
  pos : 0 < nodes.length
  forest : Forest nodes.length (childrenOf nodes)
  covered : ∀ c, 0 < c → c < nodes.length → ∃ p, c ∈ childrenOf nodes p

/- A round whose passes take the entries met so far in any order. -/
inductive RoundAnyOrder
    (nodes : List ConflictNode)
    (dispositions : List Disposition) :
    Except Fault (List Disposition) → Prop
  | rejectFails {e : Fault}
      (hReject : Traverses (rejectVisit nodes) [(0, true)]
        (dispositions, SortedMap.empty) (.error e)) :
      RoundAnyOrder nodes dispositions (.error e)
  | markFails {rejected : List Disposition} {tracked : Tracked} {e : Fault}
      (hReject : Traverses (rejectVisit nodes) [(0, true)]
        (dispositions, SortedMap.empty) (.ok (rejected, tracked)))
      (hMark : Traverses (ambiguousVisit nodes rejected tracked)
        [(0, .Walking)] [] (.error e)) :
      RoundAnyOrder nodes dispositions (.error e)
  | decides {rejected : List Disposition} {tracked : Tracked}
      {ambiguous : List (Option PackageId)}
      {result : Except Fault (List Disposition)}
      (hReject : Traverses (rejectVisit nodes) [(0, true)]
        (dispositions, SortedMap.empty) (.ok (rejected, tracked)))
      (hMark : Traverses (ambiguousVisit nodes rejected tracked)
        [(0, .Walking)] [] (.ok ambiguous))
      (hDecide : Traverses (decideVisit nodes tracked ambiguous) [(0, ())]
        rejected result) :
      RoundAnyOrder nodes dispositions result

theorem versionEq_symm
    {a b : Option NuGetVersion}
    (hEq : versionEq a b = true) :
    versionEq b a = true := by
  cases a with
  | none =>
      cases b with
      | none => rfl
      | some w => cases hEq
  | some v =>
      cases b with
      | none => cases hEq
      | some w =>
          have hCmp : v.cmp w = .eq := beq_iff_eq.1 hEq
          exact beq_iff_eq.2 (Std.OrientedCmp.eq_symm hCmp)

theorem versionEq_trans
    {a b c : Option NuGetVersion}
    (hFirst : versionEq a b = true)
    (hSecond : versionEq b c = true) :
    versionEq a c = true := by
  cases a with
  | none =>
      cases b with
      | none => exact hSecond
      | some w => cases hFirst
  | some u =>
      cases b with
      | none => cases hFirst
      | some v =>
          cases c with
          | none => cases hSecond
          | some w =>
              have hCmp : u.cmp v = .eq := beq_iff_eq.1 hFirst
              have hCmp' : v.cmp w = .eq := beq_iff_eq.1 hSecond
              exact beq_iff_eq.2 (Std.TransCmp.eq_trans hCmp hCmp')

/- Whether a version of a name is tracked. -/
def tracks
    (tracked : Tracked)
    (id : Option PackageId)
    (version : Option NuGetVersion) :
    Bool :=
  ((tracked.get id).getD []).any (versionEq version)

/- No version is tracked twice. -/
def Distinct
    (tracked : Tracked) :
    Prop :=
  ∀ id versions, tracked.get id = some versions →
    versions.Pairwise fun v w => versionEq v w = false

/- The same names with the same versions, in whatever order. -/
structure SameTracked
    (tracked tracked' : Tracked) :
    Prop where
  distinct : Distinct tracked
  distinct' : Distinct tracked'
  names : ∀ id, (tracked.get id).isSome = (tracked'.get id).isSome
  versions : ∀ id v, tracks tracked id v = tracks tracked' id v

theorem SameTracked.symm
    {tracked tracked' : Tracked}
    (hSame : SameTracked tracked tracked') :
    SameTracked tracked' tracked where
  distinct := hSame.distinct'
  distinct' := hSame.distinct
  names id := (hSame.names id).symm
  versions id v := (hSame.versions id v).symm

theorem SameTracked.trans
    {tracked tracked' tracked'' : Tracked}
    (hFirst : SameTracked tracked tracked')
    (hSecond : SameTracked tracked' tracked'') :
    SameTracked tracked tracked'' where
  distinct := hFirst.distinct
  distinct' := hSecond.distinct'
  names id := (hFirst.names id).trans (hSecond.names id)
  versions id v := (hFirst.versions id v).trans (hSecond.versions id v)

theorem distinct_empty :
    Distinct SortedMap.empty := by
  intro id versions hGet
  cases hGet

variable {id : Option PackageId}

section Tracked

variable {tracked tracked' : Tracked} {node : ConflictNode}

theorem track_isSome
    (id : Option PackageId) :
    ((track tracked node).get id).isSome =
      (decide (id = node.id) || (tracked.get id).isSome) := by
  by_cases hSame : id = node.id
  · subst hSame
    rcases track_get_self tracked node with ⟨versions, hGet, -⟩
    rw [hGet, decide_eq_true rfl]
    rfl
  · rw [track_get_other hSame, decide_eq_false hSame, Bool.false_or]

theorem tracks_track
    (id : Option PackageId)
    (v : Option NuGetVersion) :
    tracks (track tracked node) id v =
      (decide (id = node.id) && versionEq v node.version ||
        tracks tracked id v) := by
  by_cases hSame : id = node.id
  · subst hSame
    rw [decide_eq_true rfl, Bool.true_and]
    unfold tracks track
    dsimp only
    split
    · next hAny =>
        -- the version was tracked before, so one equal to it was as well
        rw [SortedMap.get_insert_self, Option.getD_some]
        cases hEq : versionEq v node.version with
        | false => rw [Bool.false_or]
        | true =>
            rw [Bool.true_or]
            rcases List.any_eq_true.1 hAny with ⟨w, hMem, hHas⟩
            exact List.any_eq_true.2 ⟨w, hMem, versionEq_trans hEq hHas⟩
    · rw [SortedMap.get_insert_self, Option.getD_some, List.any_append,
        List.any_cons, List.any_nil, Bool.or_false, Bool.or_comm]
  · unfold tracks
    rw [track_get_other hSame, decide_eq_false hSame, Bool.false_and,
      Bool.false_or]

theorem Distinct.track
    (hDistinct : Distinct tracked) :
    Distinct (track tracked node) := by
  intro id versions hGet
  by_cases hSame : id = node.id
  · subst hSame
    have hBefore : ((tracked.get node.id).getD []).Pairwise
        fun v w => versionEq v w = false := by
      cases hOld : tracked.get node.id with
      | none => exact List.Pairwise.nil
      | some old => exact hDistinct _ _ hOld
    unfold NuGet.track at hGet
    dsimp only at hGet
    split at hGet
    · rw [SortedMap.get_insert_self] at hGet
      cases hGet
      exact hBefore
    · next hNone =>
        rw [SortedMap.get_insert_self] at hGet
        cases hGet
        apply List.pairwise_append.2
        refine ⟨hBefore, List.pairwise_singleton _ _, ?_⟩
        intro v hMem w hNew
        rw [List.mem_singleton.1 hNew]
        cases hEq : versionEq v node.version with
        | false => rfl
        | true =>
            exact absurd (List.any_eq_true.2
              ⟨v, hMem, versionEq_symm hEq⟩) hNone
  · rw [track_get_other hSame] at hGet
    exact hDistinct _ _ hGet

theorem SameTracked.track
    (hSame : SameTracked tracked tracked') :
    SameTracked (track tracked node) (track tracked' node) where
  distinct := hSame.distinct.track
  distinct' := hSame.distinct'.track
  names id := by
    rw [track_isSome, track_isSome, hSame.names]
  versions id v := by
    rw [tracks_track, tracks_track, hSame.versions]

theorem SameTracked.refl
    (hDistinct : Distinct tracked) :
    SameTracked tracked tracked :=
  ⟨hDistinct, hDistinct, fun _ => rfl, fun _ _ => rfl⟩

theorem track_comm
    (other : ConflictNode)
    (hDistinct : Distinct tracked) :
    SameTracked (track (track tracked node) other)
      (track (track tracked other) node) where
  distinct := hDistinct.track.track
  distinct' := hDistinct.track.track
  names id := by
    simp only [track_isSome]
    exact Bool.or_left_comm _ _ _
  versions id v := by
    simp only [tracks_track]
    exact Bool.or_left_comm _ _ _

/- A name is disputed when two of its versions differ. -/
theorem disputed_iff
    (hDistinct : Distinct tracked)
    (id : Option PackageId) :
    disputed tracked id = true ↔
      ∃ v w, tracks tracked id v = true ∧ tracks tracked id w = true ∧
        versionEq v w = false := by
  unfold disputed tracks
  cases hGet : tracked.get id with
  | none => simp
  | some versions =>
      have hPairwise := hDistinct id versions hGet
      rw [Option.getD_some, decide_eq_true_eq]
      constructor
      · intro hLong
        cases versions with
        | nil => cases hLong
        | cons v rest =>
            cases rest with
            | nil => exact absurd hLong (Nat.lt_irrefl 1)
            | cons w rest =>
                have hApart := (List.pairwise_cons.1 hPairwise).1 w
                  List.mem_cons_self
                exact ⟨v, w,
                  List.any_eq_true.2
                    ⟨v, List.mem_cons_self, versionEq_refl v⟩,
                  List.any_eq_true.2 ⟨w, List.mem_cons_of_mem _
                    List.mem_cons_self, versionEq_refl w⟩, hApart⟩
      · rintro ⟨v, w, hV, hW, hApart⟩
        rcases List.any_eq_true.1 hV with ⟨x, hX, hVX⟩
        rcases List.any_eq_true.1 hW with ⟨y, hY, hWY⟩
        cases versions with
        | nil => cases hX
        | cons z rest =>
            cases rest with
            | nil =>
                -- both are equal to the only version
                rw [List.mem_singleton.1 hX] at hVX
                rw [List.mem_singleton.1 hY] at hWY
                rw [versionEq_trans hVX (versionEq_symm hWY)] at hApart
                cases hApart
            | cons z' rest =>
                rw [List.length_cons, List.length_cons]
                omega

theorem SameTracked.disputed
    (hSame : SameTracked tracked tracked')
    (id : Option PackageId) :
    disputed tracked id = disputed tracked' id := by
  rw [Bool.eq_iff_iff, disputed_iff hSame.distinct,
    disputed_iff hSame.distinct']
  simp only [hSame.versions]

/- A version is decided by the versions that are tracked. -/
theorem all_versionGe_iff
    {versions : List (Option NuGetVersion)}
    (hGet : tracked.get id = some versions)
    (v : Option NuGetVersion) :
    versions.all (versionGe v) = true ↔
      ∀ w, tracks tracked id w = true → versionGe v w = true := by
  unfold tracks
  rw [hGet, Option.getD_some, List.all_eq_true]
  constructor
  · intro hAll w hTracked
    rcases List.any_eq_true.1 hTracked with ⟨x, hMem, hEq⟩
    rw [versionGe_congr hEq]
    exact hAll x hMem
  · intro hAll w hMem
    apply hAll
    exact List.any_eq_true.2 ⟨w, hMem, versionEq_refl w⟩

theorem SameTracked.decideNode
    (hSame : SameTracked tracked tracked')
    {versions versions' : List (Option NuGetVersion)}
    (hGet : tracked.get id = some versions)
    (hGet' : tracked'.get id = some versions')
    (v : Option NuGetVersion) :
    decideNode versions v = decideNode versions' v := by
  have hAll : versions.all (versionGe v) = versions'.all (versionGe v) := by
    rw [Bool.eq_iff_iff, all_versionGe_iff hGet, all_versionGe_iff hGet']
    simp only [hSame.versions]
  unfold NuGet.decideNode
  rw [hAll]

end Tracked

------------------------------------------------------------
-- Visits That Can Be Swapped
------------------------------------------------------------

section Passes

variable {nodes : List ConflictNode} {dispositions : List Disposition}
variable {tracked tracked' : Tracked}
variable {ambiguous ambiguous' : List (Option PackageId)} {node : ConflictNode}
variable {disposition : Disposition} {i : Nat}

theorem node_at
    (hLength : dispositions.length = nodes.length)
    (hLt : i < nodes.length) :
    ∃ node disposition, nodes[i]? = some node ∧
      dispositions[i]? = some disposition := by
  have hLt' : i < dispositions.length := by
    rw [hLength]
    exact hLt
  exact ⟨nodes[i], dispositions[i], List.getElem?_eq_getElem hLt,
    List.getElem?_eq_getElem hLt'⟩

theorem set_same
    (hGet : dispositions[i]? = some disposition) :
    dispositions.set i disposition = dispositions := by
  rcases List.getElem?_eq_some_iff.1 hGet with ⟨hLt, rfl⟩
  exact List.set_getElem_self hLt

/- The first pass at a node, by whether the node is live. -/
theorem rejectVisit_eq
    {live alive : Bool}
    (hNode : nodes[i]? = some node)
    (hDisposition : dispositions[i]? = some disposition)
    (hAlive : (live && disposition != .Rejected) = alive) :
    rejectVisit nodes i live (dispositions, tracked) =
      .ok ((if alive then dispositions else dispositions.set i .Rejected,
          if alive then track tracked node else tracked),
        node.children.map fun child => (child, alive)) := by
  unfold rejectVisit
  dsimp only
  rw [hNode, hDisposition]
  dsimp only
  rw [hAlive]
  cases alive with
  | true => rfl
  | false => rfl

variable {live : Bool}

theorem rejectVisit_some
    {result : (List Disposition × Tracked) × List (Nat × Bool)}
    (hVisit : rejectVisit nodes i live (dispositions, tracked) =
      .ok result) :
    ∃ node disposition, nodes[i]? = some node ∧
      dispositions[i]? = some disposition := by
  unfold rejectVisit at hVisit
  dsimp only at hVisit
  split at hVisit
  · next node disposition hNode hDisposition =>
      exact ⟨node, disposition, hNode, hDisposition⟩
  · cases hVisit

theorem reject_commuting
    (nodes : List ConflictNode) :
    Commuting nodes.length (childrenOf nodes) (rejectVisit nodes)
      (fun s => s.1.length = nodes.length ∧ Distinct s.2)
      (fun s t => s.1 = t.1 ∧ SameTracked s.2 t.2) where
  symm s t hSame := ⟨hSame.1.symm, hSame.2.symm⟩
  trans s t u hFirst hSecond :=
    ⟨hFirst.1.trans hSecond.1, hFirst.2.trans hSecond.2⟩
  runs i live s hLt hValid := by
    rcases s with ⟨dispositions, tracked⟩
    rcases hValid with ⟨hLength, hDistinct⟩
    rcases node_at hLength hLt with ⟨node, disposition, hNode, hHere⟩
    refine ⟨_, _, rejectVisit_eq hNode hHere rfl, ⟨?_, ?_⟩, ?_⟩
    · dsimp only
      split
      · exact hLength
      · rw [List.length_set]
        exact hLength
    · dsimp only
      split
      · exact hDistinct.track
      · exact hDistinct
    · rw [map_fst_tag, childrenOf_eq hNode]
  congr i live s t s' t' p q hSame hVisit hVisit' := by
    rcases s with ⟨dispositions, tracked⟩
    rcases t with ⟨dispositions', tracked'⟩
    rcases hSame with ⟨hEq, hTracked⟩
    dsimp only at hEq hTracked
    subst hEq
    rcases rejectVisit_some hVisit with ⟨node, disposition, hNode, hHere⟩
    rw [rejectVisit_eq hNode hHere rfl] at hVisit hVisit'
    cases hVisit
    cases hVisit'
    refine ⟨rfl, rfl, ?_⟩
    dsimp only
    split
    · exact hTracked.track
    · exact hTracked
  swap i j live live' s s₁ s₂ s₁₂ s₂₁ p p' q q' hNe hValid hVisitI
      hVisitIJ hVisitJ hVisitJI := by
    rcases s with ⟨dispositions, tracked⟩
    rcases hValid with ⟨-, hDistinct⟩
    rcases rejectVisit_some hVisitI with ⟨node, di, hNode, hI⟩
    rcases rejectVisit_some hVisitJ with ⟨other, dj, hOther, hJ⟩
    have hElsewhere : ∀ (alive : Bool) (k m : Nat) (d : Disposition),
        k ≠ m → dispositions[m]? = some d →
        (if alive then dispositions
          else dispositions.set k .Rejected)[m]? = some d := by
      intro alive k m d hApart hGet
      cases alive with
      | true => exact hGet
      | false => exact (List.getElem?_set_ne hApart).trans hGet
    rw [rejectVisit_eq hNode hI rfl] at hVisitI
    rw [rejectVisit_eq hOther hJ rfl] at hVisitJ
    cases hVisitI
    cases hVisitJ
    rw [rejectVisit_eq hOther (hElsewhere _ i j dj hNe hJ) rfl] at hVisitIJ
    rw [rejectVisit_eq hNode (hElsewhere _ j i di hNe.symm hI) rfl]
      at hVisitJI
    cases hVisitIJ
    cases hVisitJI
    refine ⟨rfl, rfl, ?_⟩
    dsimp only
    generalize (live && di != .Rejected) = alive
    generalize (live' && dj != .Rejected) = alive'
    cases alive with
    | true =>
        cases alive' with
        | true => exact ⟨rfl, track_comm other hDistinct⟩
        | false => exact ⟨rfl, .refl hDistinct.track⟩
    | false =>
        cases alive' with
        | true => exact ⟨rfl, .refl hDistinct.track⟩
        | false =>
            exact ⟨List.set_comm _ _ hNe, .refl hDistinct⟩

/- The second pass only adds to the names that are marked. -/
theorem ambiguousVisit_eq
    (tracked : Tracked)
    (state : AmbiguityWalk)
    (hNode : nodes[i]? = some node)
    (hDisposition : dispositions[i]? = some disposition) :
    ∃ (next : AmbiguityWalk) (marked : Bool), ∀ ambiguous,
      ambiguousVisit nodes dispositions tracked i state ambiguous =
        .ok (if marked then node.id :: ambiguous else ambiguous,
          node.children.map fun child => (child, next)) := by
  unfold ambiguousVisit
  rw [hNode, hDisposition]
  dsimp only
  split
  · exact ⟨.Rejected, false, fun _ => rfl⟩
  · split
    · exact ⟨.Ambiguous, false, fun _ => rfl⟩
    · split
      · exact ⟨state, true, fun _ => rfl⟩
      · exact ⟨state, false, fun _ => rfl⟩

theorem ambiguousVisit_some
    {state : AmbiguityWalk}
    {result : List (Option PackageId) × List (Nat × AmbiguityWalk)}
    (hVisit : ambiguousVisit nodes dispositions tracked i state ambiguous =
      .ok result) :
    ∃ node disposition, nodes[i]? = some node ∧
      dispositions[i]? = some disposition := by
  unfold ambiguousVisit at hVisit
  split at hVisit
  · next node disposition hNode hDisposition =>
      exact ⟨node, disposition, hNode, hDisposition⟩
  · cases hVisit

theorem mem_marked
    {marked : Bool} :
    id ∈ (if marked then node.id :: ambiguous else ambiguous) ↔
      (marked = true ∧ id = node.id) ∨ id ∈ ambiguous := by
  cases marked with
  | true => simp
  | false => simp

theorem mark_commuting
    (tracked : Tracked)
    (hLength : dispositions.length = nodes.length) :
    Commuting nodes.length (childrenOf nodes)
      (ambiguousVisit nodes dispositions tracked) (fun _ => True)
      (fun a b => ∀ id, id ∈ a ↔ id ∈ b) where
  symm a b hSame id := (hSame id).symm
  trans a b c hFirst hSecond id := (hFirst id).trans (hSecond id)
  runs i state a hLt _ := by
    rcases node_at hLength hLt with ⟨node, disposition, hNode, hHere⟩
    rcases ambiguousVisit_eq tracked state hNode hHere with
      ⟨next, marked, hEq⟩
    refine ⟨_, _, hEq a, trivial, ?_⟩
    rw [map_fst_tag, childrenOf_eq hNode]
  congr i state a b a' b' p q hSame hVisit hVisit' := by
    rcases ambiguousVisit_some hVisit with ⟨node, disposition, hNode, hHere⟩
    rcases ambiguousVisit_eq tracked state hNode hHere with
      ⟨next, marked, hEq⟩
    rw [hEq] at hVisit hVisit'
    cases hVisit
    cases hVisit'
    refine ⟨rfl, ?_⟩
    intro id
    rw [mem_marked, mem_marked, hSame]
  swap i j state state' a a₁ a₂ a₁₂ a₂₁ p p' q q' _ _ hVisitI hVisitIJ
      hVisitJ hVisitJI := by
    rcases ambiguousVisit_some hVisitI with ⟨node, di, hNode, hI⟩
    rcases ambiguousVisit_some hVisitJ with ⟨other, dj, hOther, hJ⟩
    rcases ambiguousVisit_eq tracked state hNode hI with
      ⟨next, marked, hEqI⟩
    rcases ambiguousVisit_eq tracked state' hOther hJ with
      ⟨next', marked', hEqJ⟩
    rw [hEqI] at hVisitI hVisitJI
    rw [hEqJ] at hVisitJ hVisitIJ
    cases hVisitI
    cases hVisitJ
    cases hVisitIJ
    cases hVisitJI
    refine ⟨rfl, rfl, ?_⟩
    intro id
    rw [mem_marked, mem_marked, mem_marked, mem_marked]
    exact or_left_comm

/- The third pass at a node, by what the node was before. -/
theorem decideVisit_eq
    (ambiguous : List (Option PackageId))
    (hNode : nodes[i]? = some node)
    (disposition : Disposition)
    (hTracked : disposition = .Acceptable →
      (tracked.get node.id).isSome = true) :
    ∃ (next : Disposition) (pushed : List (Nat × Unit)),
      (next = disposition ∨
        disposition = .Acceptable ∧ next ≠ .Acceptable) ∧
      (pushed = [] ∨
        next = .Accepted ∧ pushed = node.children.map fun c => (c, ())) ∧
      ∀ dispositions : List Disposition,
        dispositions[i]? = some disposition →
        decideVisit nodes tracked ambiguous i () dispositions =
          .ok (dispositions.set i next, pushed) := by
  by_cases hSkip : disposition = .Rejected ∨ node.id ∈ ambiguous
  · refine ⟨disposition, [], Or.inl rfl, Or.inl rfl, ?_⟩
    intro dispositions hGet
    unfold decideVisit
    rw [hNode, hGet, set_same hGet]
    dsimp only
    rw [if_pos hSkip]
  · cases disposition with
    | Rejected => exact absurd (Or.inl rfl) hSkip
    | Accepted =>
        refine ⟨.Accepted, node.children.map fun c => (c, ()), Or.inl rfl,
          Or.inr ⟨rfl, rfl⟩, ?_⟩
        intro dispositions hGet
        unfold decideVisit
        rw [hNode, hGet, set_same hGet]
        dsimp only
        rw [if_neg hSkip]
        rfl
    | Acceptable =>
        rcases Option.isSome_iff_exists.1 (hTracked rfl) with
          ⟨versions, hVersions⟩
        have hVisit : ∀ dispositions : List Disposition,
            dispositions[i]? = some .Acceptable →
            decideVisit nodes tracked ambiguous i () dispositions =
              .ok (dispositions.set i (decideNode versions node.version),
                if decideNode versions node.version = .Accepted then
                  node.children.map fun c => (c, ())
                else []) := by
          intro dispositions hGet
          unfold decideVisit
          rw [hNode, hGet]
          dsimp only
          rw [if_neg hSkip, if_pos rfl, hVersions]
        have hDecided : decideNode versions node.version = .Accepted ∨
            decideNode versions node.version = .Rejected := by
          unfold decideNode
          split
          · exact Or.inl rfl
          · exact Or.inr rfl
        rcases hDecided with hAccepted | hRejected
        · rw [hAccepted] at hVisit
          exact ⟨.Accepted, _, Or.inr ⟨rfl, Disposition.noConfusion⟩,
            Or.inr ⟨rfl, rfl⟩, hVisit⟩
        · rw [hRejected] at hVisit
          exact ⟨.Rejected, _, Or.inr ⟨rfl, Disposition.noConfusion⟩,
            Or.inl rfl, hVisit⟩

theorem decideVisit_some
    {result : List Disposition × List (Nat × Unit)}
    (hVisit : decideVisit nodes tracked ambiguous i () dispositions =
      .ok result) :
    ∃ node disposition, nodes[i]? = some node ∧
      dispositions[i]? = some disposition := by
  unfold decideVisit at hVisit
  split at hVisit
  · next node disposition hNode hDisposition =>
      exact ⟨node, disposition, hNode, hDisposition⟩
  · cases hVisit

/- Every undecided node has its name tracked. -/
structure Decides
    (nodes : List ConflictNode)
    (tracked : Tracked)
    (dispositions : List Disposition) :
    Prop where
  length : dispositions.length = nodes.length
  tracked : ∀ (i : Nat) (node : ConflictNode), nodes[i]? = some node →
    dispositions[i]? = some .Acceptable →
    (tracked.get node.id).isSome = true

theorem Decides.set
    {next : Disposition}
    (hDecides : Decides nodes tracked dispositions)
    (hHere : dispositions[i]? = some disposition)
    (hNext : next = disposition ∨
      disposition = .Acceptable ∧ next ≠ .Acceptable) :
    Decides nodes tracked (dispositions.set i next) := by
  refine ⟨?_, ?_⟩
  · rw [List.length_set]
    exact hDecides.length
  · intro j other hOther hGet
    rcases hNext with hSame | ⟨-, hDecided⟩
    · rw [hSame, set_same hHere] at hGet
      exact hDecides.tracked j other hOther hGet
    · rw [List.getElem?_set] at hGet
      split at hGet
      · split at hGet
        · exact absurd (Option.some.inj hGet) hDecided
        · cases hGet
      · exact hDecides.tracked j other hOther hGet

theorem decide_commuting
    (tracked : Tracked)
    (ambiguous : List (Option PackageId)) :
    Commuting nodes.length (childrenOf nodes)
      (decideVisit nodes tracked ambiguous) (Decides nodes tracked)
      (fun s t => s = t) where
  symm s t hSame := hSame.symm
  trans s t u hFirst hSecond := hFirst.trans hSecond
  runs i _ s hLt hDecides := by
    rcases node_at hDecides.length hLt with
      ⟨node, disposition, hNode, hHere⟩
    have hTracked : disposition = .Acceptable →
        (tracked.get node.id).isSome = true := by
      intro hUndecided
      rw [hUndecided] at hHere
      exact hDecides.tracked i node hNode hHere
    rcases decideVisit_eq ambiguous hNode disposition hTracked with
      ⟨next, pushed, hNext, hPushed, hVisit⟩
    refine ⟨_, _, hVisit s hHere, hDecides.set hHere hNext, ?_⟩
    rcases hPushed with hNone | ⟨-, hAll⟩
    · rw [hNone]
      exact List.nil_sublist _
    · rw [hAll, map_fst_tag, childrenOf_eq hNode]
  congr i _ s t s' t' p q hSame hVisit hVisit' := by
    subst hSame
    rw [hVisit] at hVisit'
    cases hVisit'
    exact ⟨rfl, rfl⟩
  swap i j _ _ s s₁ s₂ s₁₂ s₂₁ p p' q q' hNe hDecides hVisitI hVisitIJ
      hVisitJ hVisitJI := by
    rcases decideVisit_some hVisitI with ⟨node, di, hNode, hI⟩
    rcases decideVisit_some hVisitJ with ⟨other, dj, hOther, hJ⟩
    rcases decideVisit_eq ambiguous hNode di
      (fun hUndecided => hDecides.tracked i node hNode
        (hUndecided ▸ hI)) with ⟨next, pushed, -, -, hEqI⟩
    rcases decideVisit_eq ambiguous hOther dj
      (fun hUndecided => hDecides.tracked j other hOther
        (hUndecided ▸ hJ)) with ⟨next', pushed', -, -, hEqJ⟩
    rw [hEqI s hI] at hVisitI
    rw [hEqJ s hJ] at hVisitJ
    cases hVisitI
    cases hVisitJ
    rw [hEqJ _ ((List.getElem?_set_ne hNe).trans hJ)] at hVisitIJ
    rw [hEqI _ ((List.getElem?_set_ne hNe.symm).trans hI)] at hVisitJI
    cases hVisitIJ
    cases hVisitJI
    exact ⟨rfl, rfl, List.set_comm _ _ hNe⟩

/- The later passes read no order out of what the earlier ones wrote. -/
theorem ambiguousVisit_congr
    (hSame : SameTracked tracked tracked') :
    ambiguousVisit nodes dispositions tracked =
      ambiguousVisit nodes dispositions tracked' := by
  funext i state ambiguous
  unfold ambiguousVisit
  simp only [hSame.disputed]

theorem decideVisit_congr
    (hSame : SameTracked tracked tracked')
    (hMarked : ∀ id, id ∈ ambiguous ↔ id ∈ ambiguous') :
    decideVisit nodes tracked ambiguous =
      decideVisit nodes tracked' ambiguous' := by
  funext i u dispositions
  unfold decideVisit
  simp only [hMarked]
  split
  · next node disposition hNode hDisposition =>
      have hNames := hSame.names node.id
      cases hGet : tracked.get node.id with
      | none =>
          cases hGet' : tracked'.get node.id with
          | none => rfl
          | some versions' =>
              rw [hGet, hGet'] at hNames
              cases hNames
      | some versions =>
          cases hGet' : tracked'.get node.id with
          | none =>
              rw [hGet, hGet'] at hNames
              cases hNames
          | some versions' =>
              dsimp only
              rw [hSame.decideNode hGet hGet']
  · rfl

/- What the first pass keeps: a node that is not rejected is tracked. -/
structure Naming
    (nodes : List ConflictNode)
    (visited : List Nat)
    (stack : List (Nat × Bool))
    (state : List Disposition × Tracked) :
    Prop where
  length : state.1.length = nodes.length
  distinct : Distinct state.2
  covers : Covers nodes visited (stack.map Prod.fst)
  tracked : ∀ j ∈ visited, ∀ node : ConflictNode, nodes[j]? = some node →
    state.1[j]? ≠ some .Rejected → (state.2.get node.id).isSome = true

theorem rejectVisit_naming
    {visited : List Nat}
    {stack : List (Nat × Bool)}
    {state : List Disposition × Tracked}
    (hLt : i < nodes.length)
    (hNaming : Naming nodes visited ((i, live) :: stack) state) :
    ∃ state' pushed,
      rejectVisit nodes i live state = .ok (state', pushed) ∧
      (pushed.map Prod.fst).Sublist (childrenOf nodes i) ∧
      Naming nodes (i :: visited) (pushed.reverse ++ stack) state' := by
  rcases state with ⟨dispositions, tracked⟩
  have hLength : dispositions.length = nodes.length := hNaming.length
  rcases node_at hLength hLt with ⟨node, disposition, hNode, hHere⟩
  have hCovers : ∀ alive : Bool, Covers nodes (i :: visited)
      (((node.children.map fun c => (c, alive)).reverse ++ stack).map
        Prod.fst) := by
    intro alive
    rw [List.map_append, List.map_reverse, map_fst_tag]
    apply hNaming.covers.next
    intro c hChild
    rw [childrenOf_eq hNode] at hChild
    exact hChild
  generalize hAlive : (live && disposition != .Rejected) = alive
  refine ⟨_, _, rejectVisit_eq hNode hHere hAlive, ?_, ?_⟩
  · rw [map_fst_tag, childrenOf_eq hNode]
  · cases alive with
    | true =>
        refine ⟨hLength, hNaming.distinct.track, hCovers true, ?_⟩
        intro j hVisited other hOther hNot
        dsimp only [if_true]
        rw [if_pos rfl, track_isSome]
        rcases List.mem_cons.1 hVisited with hSelf | hBefore
        · rw [hSelf, hNode] at hOther
          cases hOther
          rw [decide_eq_true rfl, Bool.true_or]
        · rw [hNaming.tracked j hBefore other hOther hNot, Bool.or_true]
    | false =>
        refine ⟨?_, hNaming.distinct, hCovers false, ?_⟩
        · exact List.length_set.trans hLength
        · intro j hVisited other hOther hNot
          have hSet : (dispositions.set i .Rejected)[j]? ≠
              some .Rejected := hNot
          have hApart : i ≠ j := by
            intro hSelf
            apply hSet
            rw [← hSelf, List.getElem?_set_self]
            rw [hLength]
            exact hLt
          rcases List.mem_cons.1 hVisited with hSelf | hBefore
          · exact absurd hSelf.symm hApart
          · rw [List.getElem?_set_ne hApart] at hSet
            exact hNaming.tracked j hBefore other hOther hSet

/- After the first pass every node that is not rejected is tracked. -/
theorem reject_names
    (hGraph : WalkedGraph nodes)
    (hLength : dispositions.length = nodes.length)
    {rejected : List Disposition}
    (hReject : traverse (rejectVisit nodes) (nodes.length + 1) [(0, true)]
      (dispositions, SortedMap.empty) = .ok (rejected, tracked)) :
    Decides nodes tracked rejected := by
  have hStart : Naming nodes [] [(0, true)]
      (dispositions, SortedMap.empty) := by
    refine ⟨hLength, distinct_empty, ⟨?_, ?_⟩, ?_⟩
    · exact Or.inr (List.mem_singleton.2 rfl)
    · intro j hMem
      cases hMem
    · intro j hMem
      cases hMem
  have hRun := traverse_run (Naming nodes) hGraph.forest hGraph.pos
    (fun visited i live stack state hLt hNaming =>
      rejectVisit_naming hLt hNaming) hStart
  rcases hRun with ⟨visited, state, hTraverse, hEnd, -⟩
  rw [hReject] at hTraverse
  cases hTraverse
  refine ⟨hEnd.length, ?_⟩
  intro i node hNode hUndecided
  have hLt := (List.getElem?_eq_some_iff.1 hNode).1
  apply hEnd.tracked i ?_ node hNode
  · rw [hUndecided]
    intro hSame
    cases hSame
  · exact hEnd.covers.all hGraph.forest hGraph.covered hLt

/- A round ends, in the same way in every order. -/
theorem conflictRound_any_order
    (hGraph : WalkedGraph nodes)
    (hLength : dispositions.length = nodes.length) :
    ∃ rejected tracked ambiguous decided,
      traverse (rejectVisit nodes) (nodes.length + 1) [(0, true)]
        (dispositions, SortedMap.empty) = .ok (rejected, tracked) ∧
      Decides nodes tracked rejected ∧
      traverse (decideVisit nodes tracked ambiguous) (nodes.length + 1)
        [(0, ())] rejected = .ok decided ∧
      conflictRound nodes dispositions = .ok decided ∧
      ∀ result, RoundAnyOrder nodes dispositions result ↔
        result = .ok decided := by
  rcases (reject_commuting nodes).any_order hGraph.forest hGraph.pos
    (f := true) (s := (dispositions, SortedMap.empty))
    ⟨hLength, distinct_empty⟩ ⟨rfl, .refl distinct_empty⟩ with
    ⟨⟨rejected, tracked⟩, hReject, ⟨hLength', -⟩, hOtherReject⟩
  have hDecides := reject_names hGraph hLength hReject
  rcases (mark_commuting tracked hLength').any_order hGraph.forest
    hGraph.pos (f := .Walking) (s := []) trivial (fun _ => Iff.rfl) with
    ⟨ambiguous, hMark, -, hOtherMark⟩
  rcases (decide_commuting tracked ambiguous).any_order hGraph.forest
    hGraph.pos (f := ()) hDecides rfl with
    ⟨decided, hDecide, -, hOtherDecide⟩
  refine ⟨rejected, tracked, ambiguous, decided, hReject, hDecides, hDecide,
    ?_, ?_⟩
  · unfold conflictRound
    dsimp only
    rw [hReject]
    dsimp only [bind, Except.bind]
    rw [hMark]
    exact hDecide
  · intro result
    constructor
    · intro hRound
      cases hRound with
      | rejectFails hReject' =>
          rcases hOtherReject _ hReject' with ⟨other, hEnd, -⟩
          cases hEnd
      | @markFails rejected' tracked' e hReject' hMark' =>
          rcases hOtherReject _ hReject' with ⟨other, hEnd, hSame⟩
          cases hEnd
          rcases hSame with ⟨hRejected, hTracked⟩
          dsimp only at hRejected hTracked
          rw [← hRejected, ← ambiguousVisit_congr hTracked] at hMark'
          rcases hOtherMark _ hMark' with ⟨other, hEnd, -⟩
          cases hEnd
      | @decides rejected' tracked' ambiguous' result hReject' hMark'
          hDecide' =>
          rcases hOtherReject _ hReject' with ⟨other, hEnd, hSame⟩
          cases hEnd
          rcases hSame with ⟨hRejected, hTracked⟩
          dsimp only at hRejected hTracked
          rw [← hRejected, ← ambiguousVisit_congr hTracked] at hMark'
          rcases hOtherMark _ hMark' with ⟨other, hEnd, hMarked⟩
          cases hEnd
          rw [← hRejected, ← decideVisit_congr hTracked hMarked]
            at hDecide'
          rcases hOtherDecide _ hDecide' with ⟨other, hEnd, hSame⟩
          rw [hEnd, hSame]
    · intro hResult
      rw [hResult]
      exact .decides (.of_traverse hReject) (.of_traverse hMark)
        (.of_traverse hDecide)

end Passes

end NuGet

end Borzoi
