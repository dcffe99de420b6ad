import Borzoi.NuGet.FrameworkFolder
import Borzoi.NuGet.FrameworkNearest
import Mathlib.Order.MinMax

/-
  When the reducer answers.

  Every step past the upward reduction narrows what is left, whatever the
  calls of the reducer on portable members answer.  So there is an answer
  as soon as the upward reduction leaves a candidate, and it leaves the
  ones that no other covers.  Covering is not acyclic: three portable
  candidates can cover each other in a ring.

  Main declarations:
    * `Contender`
    * `Uncovered`
    * `uncovered_of_trans`
    * `getNearest_sound`
    * `get_nearest_answers_iff`
    * `get_nearest_of_transitive`
-/

namespace Borzoi

namespace NuGet

open FrameworkId NuGetFramework Narrowing

section Equality

variable {a b c f : NuGetFramework}

theorem hasId_iff
    {identifier : List Char} :
    f.hasId identifier = true ↔
      toAsciiLowercase f.framework = toAsciiLowercase identifier :=
  eqIgnoreAsciiCase_iff

/- Identifiers that differ are not both the identifier of a framework. -/
theorem hasId_disjoint
    {identifier identifier' : List Char}
    (hDiffer :
      toAsciiLowercase identifier ≠ toAsciiLowercase identifier')
    (hId : f.hasId identifier = true) :
    f.hasId identifier' = false := by
  rw [Bool.eq_false_iff]
  intro hId'
  apply hDiffer
  rw [← hasId_iff.1 hId, hasId_iff.1 hId']

theorem eqOption_iff
    {p q : Option (List Char)} :
    eqOption p q = true ↔
      p.map toAsciiLowercase = q.map toAsciiLowercase := by
  cases p with
  | none => cases q <;> simp [eqOption]
  | some p =>
      cases q with
      | none => simp [eqOption]
      | some q => simp [eqOption, eqIgnoreAsciiCase_iff]

theorem eqPlatform_iff
    {p q : Option (List Char × List Nat)} :
    eqPlatform p q = true ↔
      p.map (fun (name, version) => (toAsciiLowercase name, version)) =
        q.map fun (name, version) => (toAsciiLowercase name, version) := by
  cases p with
  | none => cases q <;> simp [eqPlatform]
  | some p =>
      cases q with
      | none => simp [eqPlatform]
      | some q => simp [eqPlatform, eqIgnoreAsciiCase_iff]

/- What equality compares. -/
theorem frameworkEq_iff :
    a.eq b = true ↔
      toAsciiLowercase a.framework = toAsciiLowercase b.framework ∧
        a.version = b.version ∧
        a.platform.map
            (fun (name, version) => (toAsciiLowercase name, version)) =
          b.platform.map
            (fun (name, version) => (toAsciiLowercase name, version)) ∧
        a.profile.map toAsciiLowercase =
          b.profile.map toAsciiLowercase := by
  unfold NuGetFramework.eq
  simp only [Bool.and_eq_true, eqIgnoreAsciiCase_iff, beq_iff_eq,
    eqPlatform_iff, eqOption_iff, and_assoc]

theorem frameworkEq_trans
    (hFirst : a.eq b = true)
    (hSecond : b.eq c = true) :
    a.eq c = true := by
  rcases frameworkEq_iff.1 hFirst with ⟨hId, hVersion, hPlatform, hProfile⟩
  rcases frameworkEq_iff.1 hSecond with ⟨hId', hVersion', hPlatform', hProfile'⟩
  exact frameworkEq_iff.2 ⟨hId.trans hId', hVersion.trans hVersion',
    hPlatform.trans hPlatform', hProfile.trans hProfile'⟩

theorem frameworkEq_self
    (f : NuGetFramework) :
    f.eq f = true :=
  frameworkEq_iff.2 ⟨rfl, rfl, rfl, rfl⟩

theorem fullEq_iff :
    fullEq a b = true ↔
      a.isUnsupported = false ∧ b.isUnsupported = false ∧
        a.eq b = true := by
  simp [fullEq, and_assoc]

theorem fullEq_trans
    (hFirst : fullEq a b = true)
    (hSecond : fullEq b c = true) :
    fullEq a c = true := by
  rcases fullEq_iff.1 hFirst with ⟨ha, _, hab⟩
  rcases fullEq_iff.1 hSecond with ⟨_, hc, hbc⟩
  exact fullEq_iff.2 ⟨ha, hc, frameworkEq_trans hab hbc⟩

/- What a specific framework is not. -/
theorem isSpecificFramework_iff :
    f.isSpecificFramework = true ↔
      f.isAny = false ∧ f.isUnsupported = false ∧
        f.hasId AGNOSTIC = false := by
  unfold isSpecificFramework
  simp only [Bool.and_eq_true, Bool.not_eq_true', and_assoc]

end Equality

section Compatibility

variable {project candidate : NuGetFramework}

/- A project consumes what it is equal to. -/
theorem isCompatible_of_eq
    (hEq : project.eq candidate = true) :
    isCompatible project candidate = true := by
  unfold isCompatible
  rw [isCompatibleFuel]
  by_cases hAny : (candidate.isAny || project.isAny) = true
  · rw [if_pos hAny]
  · rw [if_neg hAny, if_pos hEq]

/- A specific project consumes no unsupported candidate. -/
theorem supported_of_isCompatible
    (hSpecific : project.isSpecificFramework = true)
    (hCompatible : isCompatible project candidate = true) :
    candidate.isUnsupported = false := by
  rcases isSpecificFramework_iff.1 hSpecific with ⟨hNotAny, hSupported, _⟩
  rw [Bool.eq_false_iff]
  intro hUnsupported
  have hCandidateAny : candidate.isAny = false :=
    hasId_disjoint (by decide) hUnsupported
  have hCandidateAgnostic : candidate.hasId AGNOSTIC = false :=
    hasId_disjoint (by decide) hUnsupported
  have hNotEq : project.eq candidate = false := by
    rw [Bool.eq_false_iff]
    intro hEq
    have hProject : project.isUnsupported = true :=
      hasId_iff.2 ((frameworkEq_iff.1 hEq).1.trans (hasId_iff.1 hUnsupported))
    rw [hProject] at hSupported
    cases hSupported
  unfold isCompatible at hCompatible
  rw [isCompatibleFuel] at hCompatible
  rw [hCandidateAny, hNotAny, Bool.or_self, if_neg Bool.false_ne_true, hNotEq,
    if_neg Bool.false_ne_true, hCandidateAgnostic,
    if_neg Bool.false_ne_true, hUnsupported, Bool.or_true,
    if_pos rfl] at hCompatible
  cases hCompatible

/- A framework does not cover itself. -/
theorem covers_irrefl
    (f : NuGetFramework) :
    ¬ covers f f = true := by
  unfold covers
  rw [isCompatible_of_eq (frameworkEq_self f)]
  simp

theorem covers_iff
    {j i : NuGetFramework} :
    covers j i = true ↔
      isCompatible j i = true ∧
        (isCompatible i j = true →
          sameName i j = true ∧ isZero i.version = true ∧
            isZero j.version = false) := by
  unfold covers
  by_cases hBack : isCompatible i j = true
  · simp [hBack]
  · simp [hBack]

/- Covering is transitive as far as compatibility is. -/
theorem covers_trans
    {a b c : NuGetFramework}
    (hab : isCompatible a b = true → isCompatible b c = true →
      isCompatible a c = true)
    (hbc : isCompatible b c = true → isCompatible c a = true →
      isCompatible b a = true)
    (hca : isCompatible c a = true → isCompatible a b = true →
      isCompatible c b = true)
    (hFirst : covers a b = true)
    (hSecond : covers b c = true) :
    covers a c = true := by
  rcases covers_iff.1 hFirst with ⟨hForth, hZero⟩
  rcases covers_iff.1 hSecond with ⟨hForth', hZero'⟩
  refine covers_iff.2 ⟨hab hForth hForth', ?_⟩
  -- A way back would make both steps mutual, and `b` has one version.
  intro hBack
  have hVersion := (hZero (hbc hForth' hBack)).2.1
  have hVersion' := (hZero' (hca hBack hForth)).2.2
  rw [hVersion] at hVersion'
  cases hVersion'

end Compatibility

variable {i : Nat}

section Steps

variable {project : NuGetFramework} {reduced : List Offer}

theorem sortOffers_perm
    (cmp : NuGetFramework → NuGetFramework → Ordering)
    (offers : List Offer) :
    (sortOffers cmp offers).Perm offers :=
  List.mergeSort_perm offers _

/- Where some candidate passes, keeping the ones that pass narrows. -/
theorem narrows_filter_any
    {p q : Offer → Bool}
    (hAny : reduced.any p = true)
    (hImp : ∀ c, p c = true → q c = true) :
    Narrows reduced (reduced.filter q) := by
  rcases List.any_eq_true.1 hAny with ⟨c, hc, hp⟩
  exact Narrows.filter ⟨c, hc, hImp c hp⟩

theorem sameNameStep_narrows
    (project : NuGetFramework)
    (reduced : List Offer) :
    Narrows reduced (sameNameStep project reduced) := by
  unfold sameNameStep
  split
  next hGuard =>
    apply narrows_filter_any hGuard.2
    intro c hSame
    simp only [hSame, ite_self]
  next => exact Narrows.refl

variable {candidate member : NuGetFramework}

/- A member of a portable framework is specific. -/
theorem pclMembers_specific
    (hMember : member ∈ pclMembers candidate) :
    member.isSpecificFramework = true := by
  unfold pclMembers at hMember
  cases hProfile : candidate.profile with
  | none =>
      rw [hProfile] at hMember
      cases hMember
  | some profile =>
      rw [hProfile] at hMember
      rcases List.mem_filterMap.1 hMember with ⟨text, _, hText⟩
      cases hParse : parseFolder text with
      | error e =>
          rw [hParse] at hText
          cases hText
      | ok f =>
          simp only [hParse, Option.ite_none_right_eq_some,
            Option.some.injEq] at hText
          rcases hText with ⟨hSpecific, rfl⟩
          exact hSpecific

theorem ownsMember_of_mem
    (hMember : member ∈ pclMembers candidate) :
    ownsMember member candidate = true := by
  rcases isSpecificFramework_iff.1 (pclMembers_specific hMember) with
    ⟨_, hSupported, _⟩
  exact List.any_eq_true.2 ⟨member, hMember,
    fullEq_iff.2 ⟨hSupported, hSupported, frameworkEq_self member⟩⟩

variable (nearest : NuGetFramework → List NuGetFramework → Option Nat)

theorem nearestNonPclToPcl_narrows
    (project : NuGetFramework)
    (reduced : List Offer) :
    Narrows reduced (nearestNonPclToPcl nearest project reduced) := by
  simp only [nearestNonPclToPcl]
  split
  next => exact Narrows.refl
  next member hNearest =>
    rcases Option.bind_eq_some_iff.1 hNearest with ⟨index, _, hIndex⟩
    rcases List.mem_flatMap.1 (List.mem_of_getElem? hIndex) with
      ⟨c, hc, hMember⟩
    exact Narrows.filter ⟨c, hc, ownsMember_of_mem hMember⟩

theorem nearestPclToPcl_narrows
    (project : NuGetFramework)
    (reduced : List Offer) :
    Narrows reduced (nearestPclToPcl nearest project reduced) := by
  simp only [nearestPclToPcl]
  split
  next => exact Narrows.refl
  next bestScore hBest =>
    constructor
    · intro c hc
      rcases List.mem_filterMap.1 hc with ⟨⟨c', score⟩, hScore, hKept⟩
      rcases List.mem_map.1 hScore with ⟨d, hd, hPair⟩
      simp only [Option.ite_none_right_eq_some, Option.some.injEq] at hKept
      cases hPair
      rw [← hKept.2]
      exact hd
    · intro _
      rcases List.mem_map.1 (List.max?_mem hBest) with
        ⟨⟨c, score⟩, hScore, hEq⟩
      apply List.ne_nil_of_mem
      exact List.mem_filterMap.2 ⟨(c, score), hScore, if_pos hEq⟩

theorem bestPcl_mem
    {best : Offer}
    (hBest : bestPcl reduced = some best) :
    best ∈ reduced := by
  induction reduced using List.reverseRecOn generalizing best with
  | nil => cases hBest
  | append_singleton l offer ih =>
      unfold bestPcl at hBest ih
      rw [List.foldl_append, List.foldl_cons, List.foldl_nil] at hBest
      split at hBest
      next =>
        cases hBest
        exact List.mem_append_right _ List.mem_cons_self
      next current hCurrent =>
        split at hBest
        next =>
          cases hBest
          exact List.mem_append_right _ List.mem_cons_self
        next =>
          cases hBest
          exact List.mem_append_left _ (ih hCurrent)

/- The best of portable candidates stands for all of them. -/
theorem bestPcl_narrows
    (reduced : List Offer) :
    Narrows reduced
      (if 1 < reduced.length then
        match bestPcl reduced with
        | some best => [best]
        | none => reduced
      else
        reduced) := by
  split
  next =>
    split
    next best hBest => exact Narrows.singleton (bestPcl_mem hBest)
    next => exact Narrows.refl
  next => exact Narrows.refl

theorem pclStep_narrows
    (project : NuGetFramework)
    (reduced : List Offer) :
    Narrows reduced (pclStep nearest project reduced) := by
  unfold pclStep
  by_cases hMany : 1 < reduced.length
  · simp only [if_pos hMany]
    by_cases hBoth : (reduced.any (fun c => c.1.isPcl) &&
        reduced.any fun c => !c.1.isPcl) = true
    · rw [if_pos hBoth]
      rw [Bool.and_eq_true] at hBoth
      exact narrows_filter_any hBoth.2 fun _ hNot => hNot
    · rw [if_neg hBoth]
      by_cases hPcl : reduced.any (fun c => c.1.isPcl) = true
      · rw [if_pos hPcl]
        by_cases hProject : project.isPcl = true
        · rw [if_pos hProject]
          exact (nearestPclToPcl_narrows nearest project reduced).trans
            (bestPcl_narrows _)
        · rw [if_neg hProject]
          exact (nearestNonPclToPcl_narrows nearest project reduced).trans
            (bestPcl_narrows _)
      · rw [if_neg hPcl]
        exact Narrows.refl
  · rw [if_neg hMany]
    exact Narrows.refl

theorem packageBasedStep_narrows
    (project : NuGetFramework)
    (reduced : List Offer) :
    Narrows reduced (packageBasedStep project reduced) := by
  unfold packageBasedStep
  split
  next hGuard => exact narrows_filter_any hGuard.2.2.2 fun _ hNot => hNot
  next => exact Narrows.refl

theorem sameProfileStep_narrows
    (project : NuGetFramework)
    (reduced : List Offer) :
    Narrows reduced (sameProfileStep project reduced) := by
  unfold sameProfileStep
  split
  next => exact Narrows.refl
  next projectProfile _ =>
    dsimp only
    split
    next hKept =>
      exact ⟨fun c hc => (List.mem_filter.1 hc).1, fun _ => hKept⟩
    next => exact Narrows.refl

theorem profilelessStep_narrows
    (reduced : List Offer) :
    Narrows reduced (profilelessStep reduced) := by
  unfold profilelessStep
  split
  next hGuard => exact narrows_filter_any hGuard.2.2 fun _ hNone => hNone
  next => exact Narrows.refl

theorem profileStep_narrows
    (project : NuGetFramework)
    (reduced : List Offer) :
    Narrows reduced (profileStep project reduced) := by
  unfold profileStep
  split
  next =>
    exact (sameProfileStep_narrows project reduced).trans
      (profilelessStep_narrows _)
  next => exact Narrows.refl

theorem highestVersionStep_narrows
    (project : NuGetFramework)
    (reduced : List Offer) :
    Narrows reduced (highestVersionStep project reduced) := by
  simp only [highestVersionStep]
  split
  next => exact Narrows.refl
  next version hVersion =>
    have : Std.MaxEqOr (List Nat) := ⟨max_choice⟩
    rcases List.mem_map.1 (List.max?_mem hVersion) with ⟨c, hc, hEq⟩
    rcases List.mem_filter.1 hc with ⟨hMem, hSame⟩
    apply Narrows.filter
    refine ⟨c, hMem, ?_⟩
    rw [hSame, hEq, Bool.true_and, beq_self_eq_true]

theorem fallbackStep_narrows
    (hAny : reduced.any (fun c => isFallbackPlatform c.1) = true) :
    Narrows reduced (fallbackStep reduced) := by
  unfold fallbackStep
  by_cases hTizen : reduced.any (fun c => c.1.hasId TIZEN) = true
  · rw [if_pos hTizen]
    exact narrows_filter_any hTizen fun _ hId => hId
  · rw [if_neg hTizen]
    rcases List.any_eq_true.1 hAny with ⟨c, hc, hFallback⟩
    apply Narrows.filter
    refine ⟨c, hc, ?_⟩
    unfold isFallbackPlatform at hFallback
    rcases Bool.or_eq_true_iff.1 hFallback with hAndroid | hId
    · exact hAndroid
    · exact absurd (List.any_eq_true.2 ⟨c, hc, hId⟩) hTizen

theorem platformStep_narrows
    (project : NuGetFramework)
    (reduced : List Offer) :
    Narrows reduced (platformStep project reduced) := by
  unfold platformStep
  split
  next =>
    dsimp only
    split
    next => exact highestVersionStep_narrows project reduced
    next =>
      split
      next hGuard =>
        rw [Bool.and_eq_true] at hGuard
        exact fallbackStep_narrows hGuard.2
      next => exact Narrows.refl
  next => exact Narrows.refl

/- The steps past the upward reduction leave a candidate. -/
theorem narrowed_narrows
    (project : NuGetFramework)
    (reduced : List Offer) :
    Narrows reduced (narrowed nearest project reduced) :=
  ((((sameNameStep_narrows project reduced).trans
    (pclStep_narrows nearest project _)).trans
    (packageBasedStep_narrows project _)).trans
    (profileStep_narrows project _)).trans
    (platformStep_narrows project _)

theorem firstOffer_isSome
    (hNonempty : reduced ≠ []) :
    (firstOffer reduced).isSome = true := by
  unfold firstOffer
  split
  next => exact absurd rfl hNonempty
  next => rfl
  next =>
    rw [Option.isSome_map, List.isSome_head?]
    exact (Narrows.perm (sortOffers_perm finalCompare reduced)).keeps
      hNonempty

theorem firstOffer_mem
    (hFirst : firstOffer reduced = some i) :
    ∃ c, (c, i) ∈ reduced := by
  unfold firstOffer at hFirst
  rcases Option.map_eq_some_iff.1 hFirst with ⟨⟨c, j⟩, hOffer, rfl⟩
  refine ⟨c, ?_⟩
  split at hOffer
  next => cases hOffer
  next =>
    cases hOffer
    exact List.mem_cons_self
  next =>
    exact (sortOffers_perm finalCompare reduced).subset
      (List.mem_of_mem_head? hOffer)

end Steps

------------------------------------------------------------
-- Contenders
------------------------------------------------------------

section Contenders

variable (project : NuGetFramework) (candidates : List NuGetFramework)

/- The candidate `c` at `i` is compatible, and no `Any` beside one that is
   not. -/
def Considered
    (i : Nat)
    (c : NuGetFramework) :
    Prop :=
  candidates[i]? = some c ∧ isCompatible project c = true ∧
    (c.isAny = true →
      ∀ other ∈ candidates, isCompatible project other = true →
        other.isAny = true)

/- The first of its equals considered. -/
def Contender
    (i : Nat)
    (c : NuGetFramework) :
    Prop :=
  Considered project candidates i c ∧
    ∀ j other, Considered project candidates j other → j < i →
      fullEq other c = false

/- Some contender is covered by no other. -/
def Uncovered :
    Prop :=
  ∃ i c, Contender project candidates i c ∧
    ∀ j other, Contender project candidates j other → j ≠ i →
      covers other c = false

variable {project}
variable {candidates}
variable {c : NuGetFramework} {i : Nat}

/- By the index, what stands before an element is what is less. -/
theorem mem_before_iff
    {l before after : List Offer}
    {x y : Offer}
    (hSorted : l.Pairwise fun a b => a.2 < b.2)
    (hSplit : l = before ++ x :: after) :
    y ∈ before ↔ y ∈ l ∧ y.2 < x.2 := by
  subst hSplit
  rcases List.pairwise_append.1 hSorted with ⟨_, hAfter, hBefore⟩
  constructor
  · intro hy
    exact ⟨List.mem_append_left _ hy, hBefore y hy x List.mem_cons_self⟩
  · rintro ⟨hy, hLess⟩
    rcases List.mem_append.1 hy with hy | hy
    · exact hy
    · rcases List.mem_cons.1 hy with rfl | hy
      · exact absurd hLess (Nat.lt_irrefl _)
      · have hMore := (List.pairwise_cons.1 hAfter).1 y hy
        omega

theorem possibleOffers_sublist
    (candidates : List NuGetFramework) :
    (possibleOffers candidates).Sublist candidates.zipIdx := by
  simp only [possibleOffers]
  split
  next => exact List.filter_sublist
  next => exact List.Sublist.refl _

theorem mem_possibleOffers_of_supported
    (hAt : candidates[i]? = some c)
    (hSupported : c.isUnsupported = false) :
    (c, i) ∈ possibleOffers candidates := by
  have hMem : (c, i) ∈ candidates.zipIdx :=
    List.mem_zipIdx_iff_getElem?.2 hAt
  have hNot : (!c.isUnsupported) = true := by
    rw [hSupported]
    rfl
  have hAny : (candidates.zipIdx.any fun c => !c.1.isUnsupported) = true :=
    List.any_eq_true.2 ⟨(c, i), hMem, hNot⟩
  simp only [possibleOffers, if_pos hAny]
  exact List.mem_filter.2 ⟨hMem, hNot⟩

theorem getElem?_of_mem_possibleOffers
    (hMem : (c, i) ∈ possibleOffers candidates) :
    candidates[i]? = some c :=
  List.mem_zipIdx_iff_getElem?.1
    ((possibleOffers_sublist candidates).subset hMem)

theorem mem_compatibleOffers
    (hSpecific : project.isSpecificFramework = true) :
    (c, i) ∈ compatibleOffers project candidates ↔
      candidates[i]? = some c ∧ isCompatible project c = true := by
  unfold compatibleOffers
  rw [List.mem_filter]
  constructor
  · rintro ⟨hMem, hCompatible⟩
    exact ⟨getElem?_of_mem_possibleOffers hMem, hCompatible⟩
  · rintro ⟨hAt, hCompatible⟩
    have hSupported := supported_of_isCompatible hSpecific hCompatible
    exact ⟨mem_possibleOffers_of_supported hAt hSupported, hCompatible⟩

theorem dropAny_sublist
    (input : List Offer) :
    (dropAny input).Sublist input := by
  unfold dropAny
  split
  next => exact List.filter_sublist
  next => exact List.Sublist.refl _

theorem dropAny_narrows
    (input : List Offer) :
    Narrows input (dropAny input) := by
  unfold dropAny
  split
  next hAny => exact narrows_filter_any hAny fun _ hNot => hNot
  next => exact Narrows.refl

theorem mem_dropAny
    (input : List Offer)
    (x : Offer) :
    x ∈ dropAny input ↔
      x ∈ input ∧ (x.1.isAny = true → ∀ y ∈ input, y.1.isAny = true) := by
  unfold dropAny
  by_cases hAny : (input.any fun y => !y.1.isAny) = true
  · rw [if_pos hAny, List.mem_filter]
    rcases List.any_eq_true.1 hAny with ⟨y, hy, hNot⟩
    rw [Bool.not_eq_true'] at hNot
    constructor
    · rintro ⟨hx, hNotAny⟩
      refine ⟨hx, ?_⟩
      intro hIsAny
      rw [hIsAny] at hNotAny
      cases hNotAny
    · rintro ⟨hx, hAll⟩
      refine ⟨hx, ?_⟩
      by_contra hIsAny
      rw [Bool.not_eq_true', Bool.not_eq_false] at hIsAny
      rw [hAll hIsAny y hy] at hNot
      cases hNot
  · rw [if_neg hAny]
    constructor
    · intro hx
      refine ⟨hx, fun _ y hy => ?_⟩
      by_contra hNot
      exact hAny (List.any_eq_true.2 ⟨y, hy, by simpa using hNot⟩)
    · exact And.left

/- The candidates considered, in their order. -/
theorem mem_considered
    (hSpecific : project.isSpecificFramework = true) :
    (c, i) ∈ dropAny (compatibleOffers project candidates) ↔
      Considered project candidates i c := by
  rw [mem_dropAny, mem_compatibleOffers hSpecific, and_assoc]
  unfold Considered
  constructor
  · rintro ⟨hAt, hCompatible, hAll⟩
    refine ⟨hAt, hCompatible, ?_⟩
    intro hIsAny other hOther hCompatible'
    rcases List.mem_iff_getElem?.1 hOther with ⟨j, hAt'⟩
    exact hAll hIsAny (other, j)
      ((mem_compatibleOffers hSpecific).2 ⟨hAt', hCompatible'⟩)
  · rintro ⟨hAt, hCompatible, hAll⟩
    refine ⟨hAt, hCompatible, ?_⟩
    rintro hIsAny ⟨other, j⟩ hOther
    rcases (mem_compatibleOffers hSpecific).1 hOther with ⟨hAt', hCompatible'⟩
    exact hAll hIsAny other (List.mem_of_getElem? hAt') hCompatible'

theorem considered_sorted
    (project : NuGetFramework)
    (candidates : List NuGetFramework) :
    (dropAny (compatibleOffers project candidates)).Pairwise
      fun a b => a.2 < b.2 := by
  have hSublist :
      (dropAny (compatibleOffers project candidates)).Sublist
        candidates.zipIdx :=
    (dropAny_sublist _).trans
      (List.filter_sublist.trans (possibleOffers_sublist candidates))
  apply List.Pairwise.sublist hSublist
  have hIndices : (candidates.zipIdx.map Prod.snd).Pairwise (· < ·) := by
    rw [List.zipIdx_map_snd]
    exact List.pairwise_lt_range'
  exact List.pairwise_map.1 hIndices

theorem mem_contenders
    (hSpecific : project.isSpecificFramework = true) :
    (c, i) ∈ distinctFull (dropAny (compatibleOffers project candidates)) ↔
      Contender project candidates i c := by
  have hSorted := considered_sorted project candidates
  have hTrans : ∀ a b x : Offer, fullEq a.1 b.1 = true →
      fullEq b.1 x.1 = true → fullEq a.1 x.1 = true :=
    fun _ _ _ => fullEq_trans
  refine (mem_keepFirst hTrans _ _).trans ?_
  constructor
  · rintro ⟨before, after, hSplit, hNone⟩
    have hMem : (c, i) ∈ dropAny (compatibleOffers project candidates) := by
      rw [hSplit]
      exact List.mem_append_right _ List.mem_cons_self
    refine ⟨(mem_considered hSpecific).1 hMem, ?_⟩
    intro j other hOther hLess
    exact hNone (other, j) ((mem_before_iff hSorted hSplit).2
      ⟨(mem_considered hSpecific).2 hOther, hLess⟩)
  · rintro ⟨hConsidered, hFirst⟩
    rcases List.append_of_mem ((mem_considered hSpecific).2 hConsidered) with
      ⟨before, after, hSplit⟩
    refine ⟨before, after, hSplit, ?_⟩
    rintro ⟨other, j⟩ hOther
    rcases (mem_before_iff hSorted hSplit).1 hOther with ⟨hMem, hLess⟩
    exact hFirst j other ((mem_considered hSpecific).1 hMem) hLess

theorem reduceUpwards_nil :
    reduceUpwards [] = [] := by
  simp [reduceUpwards, dropAny, distinctFull, keepFirst, sortOffers]

/- The upward reduction leaves the contenders that no other covers. -/
theorem mem_reduceUpwards
    (hSpecific : project.isSpecificFramework = true) :
    (c, i) ∈ reduceUpwards (compatibleOffers project candidates) ↔
      Contender project candidates i c ∧
        ∀ j other, Contender project candidates j other → j ≠ i →
          covers other c = false := by
  unfold reduceUpwards
  rw [(sortOffers_perm _ _).mem_iff, List.mem_filter,
    mem_contenders hSpecific, Bool.not_eq_true', List.any_eq_false]
  apply and_congr_right
  intro _
  constructor
  · intro hNone j other hOther hDiffer
    by_contra hCovers
    rw [Bool.not_eq_false] at hCovers
    apply hNone (other, j) ((mem_contenders hSpecific).2 hOther)
    rw [Bool.and_eq_true, bne_iff_ne]
    exact ⟨Ne.symm hDiffer, hCovers⟩
  · rintro hNone ⟨other, j⟩ hOther hCovered
    rw [Bool.and_eq_true, bne_iff_ne] at hCovered
    have hFalse := hNone j other ((mem_contenders hSpecific).1 hOther)
      (Ne.symm hCovered.1)
    rw [hCovered.2] at hFalse
    cases hFalse

theorem reduceUpwards_nonempty_iff
    (hSpecific : project.isSpecificFramework = true) :
    reduceUpwards (compatibleOffers project candidates) ≠ [] ↔
      Uncovered project candidates := by
  constructor
  · intro hNonempty
    rcases List.exists_mem_of_ne_nil _ hNonempty with ⟨⟨c, i⟩, hMem⟩
    rcases (mem_reduceUpwards hSpecific).1 hMem with ⟨hContender, hNone⟩
    exact ⟨i, c, hContender, hNone⟩
  · rintro ⟨i, c, hContender, hNone⟩
    exact List.ne_nil_of_mem
      ((mem_reduceUpwards hSpecific).2 ⟨hContender, hNone⟩)

/- Where compatibility is transitive, some contender is not covered. -/
theorem uncovered_of_trans
    (hSpecific : project.isSpecificFramework = true)
    (hTrans : ∀ a ∈ candidates, ∀ b ∈ candidates, ∀ c ∈ candidates,
      isCompatible a b = true → isCompatible b c = true →
        isCompatible a c = true)
    (hCompatible : ∃ c ∈ candidates, isCompatible project c = true) :
    Uncovered project candidates := by
  let contenders := distinctFull (dropAny (compatibleOffers project candidates))
  have hOffered : ∀ x ∈ contenders, x.1 ∈ candidates := by
    rintro ⟨c, i⟩ hMem
    exact List.mem_of_getElem? ((mem_contenders hSpecific).1 hMem).1.1
  have hNonempty : contenders ≠ [] := by
    rcases hCompatible with ⟨c, hc, hCompatible⟩
    rcases List.mem_iff_getElem?.1 hc with ⟨i, hAt⟩
    have hMem := (mem_compatibleOffers hSpecific).2 ⟨hAt, hCompatible⟩
    have hNarrows : Narrows (compatibleOffers project candidates) contenders :=
      (dropAny_narrows _).trans (keepFirst_narrows _)
    exact hNarrows.keeps (List.ne_nil_of_mem hMem)
  have hBest : ∃ x ∈ contenders, ∀ y ∈ contenders, ¬ covers y.1 x.1 = true := by
    apply exists_unbeaten hNonempty
    · intro x _
      exact covers_irrefl x.1
    · intro x hx y hy z hz
      have hx' := hOffered x hx
      have hy' := hOffered y hy
      have hz' := hOffered z hz
      exact covers_trans (hTrans _ hx' _ hy' _ hz')
        (hTrans _ hy' _ hz' _ hx') (hTrans _ hz' _ hx' _ hy')
  rcases hBest with ⟨⟨c, i⟩, hMem, hUnbeaten⟩
  refine ⟨i, c, (mem_contenders hSpecific).1 hMem, ?_⟩
  intro j other hOther _
  exact Bool.eq_false_iff.2
    (hUnbeaten (other, j) ((mem_contenders hSpecific).2 hOther))

end Contenders

------------------------------------------------------------
-- Answers
------------------------------------------------------------

section Answers

variable {nearest : NuGetFramework → List NuGetFramework → Option Nat}
variable {project : NuGetFramework} {candidates : List NuGetFramework}

/- A supported candidate equal to the project is found at once. -/
theorem find_equal_isSome_iff :
    ((possibleOffers candidates).find?
        fun c => fullEq project c.1).isSome = true ↔
      ∃ c ∈ candidates, fullEq project c = true := by
  rw [List.find?_isSome]
  constructor
  · rintro ⟨⟨c, i⟩, hMem, hEq⟩
    exact ⟨c, List.mem_of_getElem? (getElem?_of_mem_possibleOffers hMem), hEq⟩
  · rintro ⟨c, hMem, hEq⟩
    rcases List.mem_iff_getElem?.1 hMem with ⟨i, hAt⟩
    have hSupported := (fullEq_iff.1 hEq).2.1
    exact ⟨(c, i), mem_possibleOffers_of_supported hAt hSupported, hEq⟩

section

variable (hSpecific : project.isSpecificFramework = true)

include hSpecific

/- There is an answer for an equal candidate, and as soon as the upward
   reduction leaves one. -/
theorem getNearestWith_isSome_iff :
    (getNearestWith nearest project candidates).isSome = true ↔
      (∃ c ∈ candidates, fullEq project c = true) ∨
        Uncovered project candidates := by
  rw [← find_equal_isSome_iff, ← reduceUpwards_nonempty_iff hSpecific]
  unfold getNearestWith
  cases hFind : (possibleOffers candidates).find?
      fun c => fullEq project c.1 with
  | some c =>
      simp only [Option.isSome_some, true_or]
  | none =>
      simp only [Option.isSome_none, Bool.false_eq_true, false_or]
      by_cases hNone : compatibleOffers project candidates = []
      · rw [if_pos hNone, hNone]
        constructor
        · intro hSome
          cases hSome
        · intro hNonempty
          exact absurd reduceUpwards_nil hNonempty
      · rw [if_neg hNone]
        have hNarrows := narrowed_narrows nearest project
          (reduceUpwards (compatibleOffers project candidates))
        constructor
        · intro hSome
          rcases Option.isSome_iff_exists.1 hSome with ⟨i, hFirst⟩
          rcases firstOffer_mem hFirst with ⟨c, hMem⟩
          exact List.ne_nil_of_mem (hNarrows.subset hMem)
        · intro hNonempty
          exact firstOffer_isSome (hNarrows.keeps hNonempty)

/- An answer equals the project, or no other contender covers it. -/
theorem getNearestWith_uncovered
    (hNearest : getNearestWith nearest project candidates = some i) :
    ∃ c, candidates[i]? = some c ∧ isCompatible project c = true ∧
      (fullEq project c = true ∨
        ∀ j other, Contender project candidates j other → j ≠ i →
          covers other c = false) := by
  unfold getNearestWith at hNearest
  split at hNearest
  next c hFind =>
    cases hNearest
    have hEq := List.find?_some hFind
    exact ⟨c.1, getElem?_of_mem_possibleOffers (List.mem_of_find?_eq_some hFind),
      isCompatible_of_eq (fullEq_iff.1 hEq).2.2, Or.inl hEq⟩
  next =>
    simp only at hNearest
    split at hNearest
    next => cases hNearest
    next =>
      rcases firstOffer_mem hNearest with ⟨c, hMem⟩
      have hReduced := (narrowed_narrows nearest project _).subset hMem
      rcases (mem_reduceUpwards hSpecific).1 hReduced with ⟨hContender, hNone⟩
      rcases hContender.1 with ⟨hAt, hCompatible, -⟩
      exact ⟨c, hAt, hCompatible, Or.inr hNone⟩

theorem getNearestWith_sound
    (hNearest : getNearestWith nearest project candidates = some i) :
    ∃ c, candidates[i]? = some c ∧ isCompatible project c = true := by
  rcases getNearestWith_uncovered hSpecific hNearest with
    ⟨c, hAt, hCompatible, -⟩
  exact ⟨c, hAt, hCompatible⟩

theorem getNearest_isSome_iff :
    (DependencyGroupNearest.getNearest project candidates).isSome = true ↔
      (∃ c ∈ candidates, fullEq project c = true) ∨
        Uncovered project candidates :=
  getNearestWith_isSome_iff hSpecific

theorem getNearest_sound
    (hNearest :
      DependencyGroupNearest.getNearest project candidates = some i) :
    ∃ c, candidates[i]? = some c ∧ isCompatible project c = true :=
  getNearestWith_sound hSpecific hNearest

end

/- `net45`. -/
def net45 :
    NuGetFramework :=
  ⟨NET_FRAMEWORK, [4, 5, 0, 0], none, none⟩

/- Selection is sound, and it is complete exactly where some compatible
   candidate equals the project or is covered by no other. -/
theorem get_nearest_answers_iff
    (project : NuGetFramework)
    (candidates : List NuGetFramework)
    (hSpecific : project.isSpecificFramework = true) :
    (((DependencyGroupNearest.getNearest project candidates).isSome = true ↔
          ∃ c ∈ candidates, isCompatible project c = true) ∧
        ∀ i, DependencyGroupNearest.getNearest project candidates = some i →
          ∃ c, candidates[i]? = some c ∧ isCompatible project c = true) ↔
      ((∃ c ∈ candidates, isCompatible project c = true) →
        (∃ c ∈ candidates, fullEq project c = true) ∨
          Uncovered project candidates) := by
  have hSome := @getNearest_isSome_iff project candidates hSpecific
  constructor
  · rintro ⟨hComplete, _⟩ hCompatible
    exact hSome.1 (hComplete.2 hCompatible)
  · intro hCondition
    refine ⟨⟨?_, fun hCompatible => hSome.2 (hCondition hCompatible)⟩,
      fun i hNearest => getNearest_sound hSpecific hNearest⟩
    intro hAnswer
    rcases Option.isSome_iff_exists.1 hAnswer with ⟨i, hNearest⟩
    rcases getNearest_sound hSpecific hNearest with ⟨c, hAt, hCompatible⟩
    exact ⟨c, List.mem_of_getElem? hAt, hCompatible⟩

def net20 :
    NuGetFramework :=
  ⟨NET_FRAMEWORK, [2, 0, 0, 0], none, none⟩

def net35 :
    NuGetFramework :=
  ⟨NET_FRAMEWORK, [3, 5, 0, 0], none, none⟩

theorem get_nearest_answers_iff_net45 :
    (((DependencyGroupNearest.getNearest net45 [net20, net35]).isSome = true ↔
          ∃ c ∈ [net20, net35], isCompatible net45 c = true) ∧
        ∀ i, DependencyGroupNearest.getNearest net45 [net20, net35] = some i →
          ∃ c, [net20, net35][i]? = some c ∧ isCompatible net45 c = true) ↔
      ((∃ c ∈ [net20, net35], isCompatible net45 c = true) →
        (∃ c ∈ [net20, net35], fullEq net45 c = true) ∨
          Uncovered net45 [net20, net35]) :=
  get_nearest_answers_iff net45 [net20, net35] (by decide)

/-
  Among candidates on which compatibility is transitive a compatible one
  is never missed, and what is selected is a nearest one.
-/
theorem get_nearest_of_transitive
    (hSpecific : project.isSpecificFramework = true)
    (hTrans : ∀ a ∈ candidates, ∀ b ∈ candidates, ∀ c ∈ candidates,
      isCompatible a b = true → isCompatible b c = true →
        isCompatible a c = true) :
    ((DependencyGroupNearest.getNearest project candidates).isSome = true ↔
        ∃ c ∈ candidates, isCompatible project c = true) ∧
      ∀ i, DependencyGroupNearest.getNearest project candidates = some i →
        ∃ c, candidates[i]? = some c ∧ isCompatible project c = true ∧
          (fullEq project c = true ∨
            ∀ j other, Contender project candidates j other → j ≠ i →
              covers other c = false) := by
  refine ⟨⟨?_, ?_⟩, fun i hNearest =>
    getNearestWith_uncovered hSpecific hNearest⟩
  · intro hAnswer
    rcases Option.isSome_iff_exists.1 hAnswer with ⟨i, hNearest⟩
    rcases getNearest_sound hSpecific hNearest with ⟨c, hAt, hCompatible⟩
    exact ⟨c, List.mem_of_getElem? hAt, hCompatible⟩
  · intro hCompatible
    exact (getNearest_isSome_iff hSpecific).2
      (Or.inr (uncovered_of_trans hSpecific hTrans hCompatible))

theorem get_nearest_of_transitive_net45 :
    (DependencyGroupNearest.getNearest net45 [net20, net35]).isSome = true ↔
      ∃ c ∈ [net20, net35], isCompatible net45 c = true :=
  (get_nearest_of_transitive (by decide) (by decide +kernel)).1

end Answers

section Ring

/- Three portable frameworks, as their folder names say. -/
def ring :
    List NuGetFramework :=
  ["dotnet51+aspnet50+dnxcore10",
    "net6.0-android+net45+aspnetcore50+dotnet51",
    "monoandroid+dnx+dnxcore50+dotnet51"].map fun members =>
      ⟨PORTABLE, [0, 0, 0, 0], none, some members.toList⟩

/- `net45` consumes all three and is none of them, and each is covered
   by the one before it. -/
theorem ring_facts :
    net45.isSpecificFramework = true ∧
      (∃ c ∈ ring, isCompatible net45 c = true) ∧
      (¬ ∃ c ∈ ring, fullEq net45 c = true) ∧
      compatibleOffers net45 ring = ring.zipIdx ∧
      distinctFull (dropAny ring.zipIdx) = ring.zipIdx ∧
      (ring.zipIdx.filter fun i =>
        !ring.zipIdx.any fun j => i.2 != j.2 && covers j.1 i.1) = [] := by
  decide +kernel

theorem ring_reduced :
    reduceUpwards (compatibleOffers net45 ring) = [] := by
  rcases ring_facts with ⟨-, -, -, hOffers, hDistinct, hCovered⟩
  unfold reduceUpwards
  rw [hOffers, hDistinct]
  dsimp only
  rw [hCovered, sortOffers, List.mergeSort_nil]

/- The ring empties the upward reduction, and `net45` gets no answer
   though it consumes all three. -/
theorem get_nearest_misses_ring :
    ¬ ∀ (project : NuGetFramework) (candidates : List NuGetFramework),
      project.isSpecificFramework = true →
        ((DependencyGroupNearest.getNearest project candidates).isSome = true ↔
            ∃ c ∈ candidates, isCompatible project c = true) ∧
          ∀ i, DependencyGroupNearest.getNearest project candidates = some i →
            ∃ c, candidates[i]? = some c ∧ isCompatible project c = true := by
  intro hClaim
  rcases ring_facts with ⟨hSpecific, hCompatible, hNotEqual, -⟩
  have hSome := (hClaim net45 ring hSpecific).1.2 hCompatible
  rcases (getNearest_isSome_iff hSpecific).1 hSome with
    hEqual | hUncovered
  · exact hNotEqual hEqual
  · exact (reduceUpwards_nonempty_iff hSpecific).2 hUncovered ring_reduced

end Ring

end NuGet

end Borzoi
