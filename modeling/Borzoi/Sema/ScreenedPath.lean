import Borzoi.Sema.ProjectItems

/-
  The screens that withhold a referenced assembly's names.

  A signature screens the paths that it may expose.  A path that a later
  or the same signature exports exactly is exempt.  The fold of an opened
  surface screens by what it knows of an entry, the opened path and the
  entry's name.

  Main declarations:
    * `screenedBy`
    * `screenedPath`
    * `sigScreenedOpenName`
    * `screens_open_name`
-/

namespace Borzoi

namespace Resolve

namespace ProjectItems

/- The last screen that is exempt and whose implementation is folded. -/
def latestPublishedExempt
    (p : ProjectItems)
    (exempt : SigScreen → Bool) :
    Option Nat :=
  let now := p.itemFileBases.length
  let published := p.sigScreens.filter fun entry =>
    decide (entry.2 < now) && exempt entry.1
  (published.map Prod.snd).max?

/- Whether a screen that is not exempt, and that no later one overrides,
   reaches what is read. -/
def screenedBy
    (p : ProjectItems)
    (exempt reaches : SigScreen → Bool) :
    Bool :=
  p.sigScreens.any fun entry =>
    if exempt entry.1 then
      false
    else if (p.latestPublishedExempt exempt).any fun j =>
        decide (entry.2 ≤ j) then
      false
    else
      reaches entry.1

end ProjectItems

/- Whether a screen withholds a path. -/
def SigScreen.reachesPath
    (screen : SigScreen)
    (names : Path) :
    Bool :=
  (screen.roots.any fun root =>
    decide (root.path.length < names.length) &&
      root.path.isPrefixOf names &&
      (names.drop root.path.length).any fun seg =>
        decide (seg ∈ screen.names)) ||
    screen.valuePaths.any fun vp => vp.isPrefixOf names

/- Whether a screen withholds an entry of an opened surface. -/
def SigScreen.reachesOpened
    (screen : SigScreen)
    (opened : Path)
    (name : String) :
    Bool :=
  (screen.roots.any fun root =>
    if root.path.isPrefixOf opened then
      ((opened.drop root.path.length).any fun seg =>
        decide (seg ∈ screen.names)) || decide (name ∈ screen.names)
    else
      decide (opened.length < root.path.length) &&
        opened.isPrefixOf root.path && decide (name ∈ screen.names)) ||
    screen.valuePaths.any fun vp =>
      vp.isPrefixOf opened ||
        decide (vp.length = opened.length + 1) && opened.isPrefixOf vp &&
          vp.getLast?.any fun last => last == name

namespace ProjectItems

def screenedPath
    (p : ProjectItems)
    (names : Path)
    (caseExempt : Bool) :
    Bool :=
  p.screenedBy
    (fun s => decide (names ∈ s.exportedValuePaths) ||
      caseExempt && decide (names ∈ s.exportedCasePaths))
    (fun s => s.reachesPath names)

def sigScreenedPath
    (p : ProjectItems)
    (names : Path) :
    Bool :=
  p.screenedPath names false

def sigScreenedOpenName
    (p : ProjectItems)
    (opened : Path)
    (name : String) :
    Bool :=
  p.screenedBy
    (fun s => decide (opened ++ [name] ∈ s.exportedValuePaths))
    (fun s => s.reachesOpened opened name)

end ProjectItems

section Screened

variable {p : ProjectItems} {exempt reaches : SigScreen → Bool}

/- No screen from the rank on is exempt and published. -/
theorem latestPublishedExempt_lt
    {rank : Nat} :
    (p.latestPublishedExempt exempt).any (fun j => decide (rank ≤ j)) =
        false ↔
      ∀ other ∈ p.sigScreens, other.2 < p.itemFileBases.length →
        exempt other.1 = true → other.2 < rank := by
  have hPublished : ∀ k : Nat,
      k ∈ ((p.sigScreens.filter fun entry =>
        decide (entry.2 < p.itemFileBases.length) &&
          exempt entry.1).map Prod.snd) ↔
        ∃ other ∈ p.sigScreens, (other.2 < p.itemFileBases.length ∧
          exempt other.1 = true) ∧ other.2 = k := by
    intro k
    simp [and_assoc]
  unfold ProjectItems.latestPublishedExempt
  dsimp only
  generalize ((p.sigScreens.filter fun entry =>
    decide (entry.2 < p.itemFileBases.length) &&
      exempt entry.1).map Prod.snd) = ranks at hPublished ⊢
  cases hMax : ranks.max? with
  | none =>
      rw [List.max?_eq_none_iff] at hMax
      constructor
      · intro _ other hMem hFolded hExempt
        have hNone := (hPublished other.2).2
          ⟨other, hMem, ⟨hFolded, hExempt⟩, rfl⟩
        rw [hMax] at hNone
        cases hNone
      · intro _
        rfl
  | some k =>
      rw [List.max?_eq_some_iff] at hMax
      rcases hMax with ⟨hHere, hLast⟩
      rw [Option.any_some, decide_eq_false_iff_not, Nat.not_le]
      constructor
      · intro hLt other hMem hFolded hExempt
        have hLe := hLast other.2 ((hPublished other.2).2
          ⟨other, hMem, ⟨hFolded, hExempt⟩, rfl⟩)
        exact Nat.lt_of_le_of_lt hLe hLt
      · intro hAll
        rcases (hPublished k).1 hHere with
          ⟨other, hMem, ⟨hFolded, hExempt⟩, rfl⟩
        exact hAll other hMem hFolded hExempt

/- A screen withholds when it reaches, and nothing exempts or overrides
   it. -/
theorem screenedBy_iff :
    p.screenedBy exempt reaches = true ↔
      ∃ entry ∈ p.sigScreens, exempt entry.1 = false ∧
        (∀ other ∈ p.sigScreens, other.2 < p.itemFileBases.length →
          exempt other.1 = true → other.2 < entry.2) ∧
        reaches entry.1 = true := by
  unfold ProjectItems.screenedBy
  rw [List.any_eq_true]
  constructor
  · rintro ⟨entry, hMem, hReaches⟩
    refine ⟨entry, hMem, ?_⟩
    split at hReaches
    · cases hReaches
    · next hExempt =>
        split at hReaches
        · cases hReaches
        · next hLatest =>
            exact ⟨Bool.eq_false_iff.2 hExempt,
              latestPublishedExempt_lt.1 (Bool.eq_false_iff.2 hLatest),
              hReaches⟩
  · rintro ⟨entry, hMem, hExempt, hLatest, hReaches⟩
    refine ⟨entry, hMem, ?_⟩
    rw [if_neg (Bool.eq_false_iff.1 hExempt),
      if_neg (Bool.eq_false_iff.1 (latestPublishedExempt_lt.2 hLatest))]
    exact hReaches

end Screened

variable {screen : SigScreen}

/- A root at or above the path mentions a later segment of it. -/
theorem reachesPath_iff
    {names : Path} :
    screen.reachesPath names = true ↔
      (∃ root ∈ screen.roots, ∃ seg rest,
        names = root.path ++ rest ∧ seg ∈ rest ∧ seg ∈ screen.names) ∨
      ∃ vp ∈ screen.valuePaths, vp <+: names := by
  unfold SigScreen.reachesPath
  rw [Bool.or_eq_true, List.any_eq_true, List.any_eq_true]
  apply or_congr
  · apply exists_congr
    intro root
    apply and_congr_right
    intro _
    rw [Bool.and_eq_true, Bool.and_eq_true, List.isPrefixOf_iff_prefix,
      List.any_eq_true]
    constructor
    · rintro ⟨⟨-, rest, hNames⟩, seg, hSeg, hMentioned⟩
      rw [← hNames, List.drop_left] at hSeg
      exact ⟨seg, rest, hNames.symm, hSeg, of_decide_eq_true hMentioned⟩
    · rintro ⟨seg, rest, hNames, hSeg, hMentioned⟩
      have hPos := List.length_pos_of_mem hSeg
      rw [hNames, List.drop_left]
      refine ⟨⟨?_, rest, rfl⟩, seg, hSeg, decide_eq_true hMentioned⟩
      rw [decide_eq_true_eq, List.length_append]
      omega
  · simp only [List.isPrefixOf_iff_prefix]

/- Of a root below the opened path only the name is known. -/
theorem reachesOpened_iff
    {opened : Path}
    {name : String} :
    screen.reachesOpened opened name = true ↔
      (∃ root ∈ screen.roots, opened.length < root.path.length ∧
        opened <+: root.path ∧ name ∈ screen.names) ∨
      screen.reachesPath (opened ++ [name]) = true := by
  rw [reachesPath_iff]
  unfold SigScreen.reachesOpened
  rw [Bool.or_eq_true, List.any_eq_true, List.any_eq_true]
  constructor
  · rintro (⟨root, hRoot, hReaches⟩ | ⟨vp, hVp, hReaches⟩)
    · split at hReaches
      · next hUnder =>
          rcases List.isPrefixOf_iff_prefix.1 hUnder with ⟨rest, rfl⟩
          rw [List.drop_left, Bool.or_eq_true, List.any_eq_true] at hReaches
          refine Or.inr (Or.inl ⟨root, hRoot, ?_⟩)
          rcases hReaches with ⟨seg, hSeg, hMentioned⟩ | hMentioned
          · exact ⟨seg, rest ++ [name], List.append_assoc _ _ _,
              List.mem_append_left _ hSeg, of_decide_eq_true hMentioned⟩
          · exact ⟨name, rest ++ [name], List.append_assoc _ _ _,
              List.mem_append_right _ (List.mem_singleton.2 rfl),
              of_decide_eq_true hMentioned⟩
      · rw [Bool.and_eq_true, Bool.and_eq_true,
          List.isPrefixOf_iff_prefix, decide_eq_true_eq,
          decide_eq_true_eq] at hReaches
        exact Or.inl ⟨root, hRoot, hReaches.1.1, hReaches.1.2, hReaches.2⟩
    · refine Or.inr (Or.inr ⟨vp, hVp, ?_⟩)
      rw [Bool.or_eq_true, Bool.and_eq_true, Bool.and_eq_true,
        List.isPrefixOf_iff_prefix, List.isPrefixOf_iff_prefix,
        decide_eq_true_eq] at hReaches
      rcases hReaches with hUnder | ⟨⟨hLength, rest, rfl⟩, hLast⟩
      · exact hUnder.trans (List.prefix_append _ _)
      · -- the exposed path is the opened one and one more segment
        have hOne : rest.length = 1 := by
          rw [List.length_append] at hLength
          omega
        rcases List.length_eq_one_iff.1 hOne with ⟨last, rfl⟩
        rw [List.getLast?_concat, Option.any_some, beq_iff_eq] at hLast
        rw [hLast]
  · rintro (⟨root, hRoot, hBelow, hUnder, hMentioned⟩ |
      ⟨root, hRoot, seg, rest, hNames, hSeg, hMentioned⟩ |
      ⟨vp, hVp, hUnder⟩)
    · refine Or.inl ⟨root, hRoot, ?_⟩
      have hNot : ¬ root.path.isPrefixOf opened = true := by
        rw [List.isPrefixOf_iff_prefix]
        intro hOver
        have hLe := hOver.length_le
        omega
      rw [if_neg hNot, Bool.and_eq_true, Bool.and_eq_true,
        List.isPrefixOf_iff_prefix]
      exact ⟨⟨decide_eq_true hBelow, hUnder⟩, decide_eq_true hMentioned⟩
    · refine Or.inl ⟨root, hRoot, ?_⟩
      -- the residual ends in the name, so the root is at or above `opened`
      rcases List.eq_nil_or_concat rest with hNil | ⟨residual, last, hRest⟩
      · rw [hNil] at hSeg
        cases hSeg
      · rw [List.concat_eq_append] at hRest
        rw [hRest, ← List.append_assoc] at hNames
        rcases List.append_inj' hNames rfl with ⟨hOpened, hLast⟩
        cases hLast
        rw [hOpened, if_pos (List.isPrefixOf_iff_prefix.2
          (List.prefix_append _ _)), List.drop_left, Bool.or_eq_true,
          List.any_eq_true]
        rw [hRest] at hSeg
        rcases List.mem_append.1 hSeg with hResidual | hHere
        · exact Or.inl ⟨seg, hResidual, decide_eq_true hMentioned⟩
        · rw [← List.mem_singleton.1 hHere]
          exact Or.inr (decide_eq_true hMentioned)
    · refine Or.inr ⟨vp, hVp, ?_⟩
      rw [Bool.or_eq_true, Bool.and_eq_true, Bool.and_eq_true,
        List.isPrefixOf_iff_prefix, List.isPrefixOf_iff_prefix]
      rcases List.prefix_concat_iff.1 hUnder with hFull | hOver
      · rw [hFull, List.length_append, List.getLast?_concat,
          Option.any_some]
        exact Or.inr ⟨⟨decide_eq_true rfl, List.prefix_append _ _⟩,
          beq_self_eq_true name⟩
      · exact Or.inl hOver

/- A screen that exports more paths exactly. -/
def SigScreen.exportMore
    (values cases : Finset Path)
    (screen : SigScreen) :
    SigScreen :=
  { screen with
    exportedValuePaths := screen.exportedValuePaths ∪ values
    exportedCasePaths := screen.exportedCasePaths ∪ cases }

/- The state with one screen that exports more. -/
def ProjectItems.exportMore
    (p : ProjectItems)
    (i : Nat)
    (values cases : Finset Path) :
    ProjectItems :=
  { p with
    sigScreens := p.sigScreens.modify i fun entry =>
      (entry.1.exportMore values cases, entry.2) }

section More

variable {p : ProjectItems} {exempt reaches : SigScreen → Bool} {i : Nat}
variable {values cases : Finset Path}

/- Every screen keeps its place and its rank. -/
theorem exportMore_getElem?
    (k : Nat) :
    (p.exportMore i values cases).sigScreens[k]? =
      p.sigScreens[k]?.map fun entry =>
        (if i = k then entry.1.exportMore values cases else entry.1,
          entry.2) := by
  unfold ProjectItems.exportMore
  dsimp only
  rw [List.getElem?_modify]
  cases p.sigScreens[k]? with
  | none => rfl
  | some entry =>
      change some _ = some _
      dsimp only
      by_cases hHere : i = k
      · rw [if_pos hHere, if_pos hHere]
      · rw [if_neg hHere, if_neg hHere]

/- More exports exempt more and override more. -/
theorem screenedBy_exportMore
    (hExempt : ∀ s : SigScreen, exempt s = true →
      exempt (s.exportMore values cases) = true)
    (hReaches : ∀ s : SigScreen,
      reaches (s.exportMore values cases) = reaches s)
    (hScreened : (p.exportMore i values cases).screenedBy exempt reaches =
      true) :
    p.screenedBy exempt reaches = true := by
  rw [screenedBy_iff] at hScreened ⊢
  have hExempt' : ∀ (s : SigScreen) (k : Nat), exempt s = true →
      exempt (if i = k then s.exportMore values cases else s) = true := by
    intro s k hBefore
    split
    · exact hExempt s hBefore
    · exact hBefore
  rcases hScreened with ⟨entry', hMem', hNot, hLatest, hReach⟩
  rcases List.mem_iff_getElem?.1 hMem' with ⟨k, hGet'⟩
  rw [exportMore_getElem?] at hGet'
  rcases Option.map_eq_some_iff.1 hGet' with ⟨entry, hGet, rfl⟩
  refine ⟨entry, List.mem_of_getElem? hGet, ?_, ?_, ?_⟩
  · cases hBefore : exempt entry.1 with
    | false => rfl
    | true =>
        dsimp only at hNot
        rw [hExempt' entry.1 k hBefore] at hNot
        cases hNot
  · intro other hMem hFolded hBefore
    rcases List.mem_iff_getElem?.1 hMem with ⟨m, hOther⟩
    have hOther' : (p.exportMore i values cases).sigScreens[m]? =
        some (if i = m then other.1.exportMore values cases else other.1,
          other.2) := by
      rw [exportMore_getElem?, hOther]
      rfl
    have hMem' := List.mem_of_getElem? hOther'
    have hLt := hLatest _ hMem' hFolded (hExempt' other.1 m hBefore)
    exact hLt
  · dsimp only at hReach
    split at hReach
    · rw [hReaches] at hReach
      exact hReach
    · exact hReach

theorem exempt_exportMore
    {names : Path}
    {caseExempt : Bool}
    (s : SigScreen)
    (hExempt : (decide (names ∈ s.exportedValuePaths) ||
      caseExempt && decide (names ∈ s.exportedCasePaths)) = true) :
    (decide (names ∈ (s.exportMore values cases).exportedValuePaths) ||
      caseExempt &&
        decide (names ∈ (s.exportMore values cases).exportedCasePaths)) =
      true := by
  rw [Bool.or_eq_true, Bool.and_eq_true, decide_eq_true_eq,
    decide_eq_true_eq] at hExempt ⊢
  rcases hExempt with hValue | ⟨hCase, hPath⟩
  · exact Or.inl (Finset.mem_union_left _ hValue)
  · exact Or.inr ⟨hCase, Finset.mem_union_left _ hPath⟩

end More

/-
  The open fold withholds what the path screen withholds, and more only
  for a name that a signature with a root below the opened path mentions;
  exporting more paths exactly screens none.
-/
theorem screens_open_name
    (p : ProjectItems)
    (opened : Path)
    (name : String) :
    (p.sigScreenedPath (opened ++ [name]) = true →
      p.sigScreenedOpenName opened name = true) ∧
    (p.sigScreenedOpenName opened name = true →
      p.sigScreenedPath (opened ++ [name]) = false →
      ∃ entry ∈ p.sigScreens, ∃ root ∈ entry.1.roots,
        opened.length < root.path.length ∧ opened <+: root.path ∧
        name ∈ entry.1.names) ∧
    ∀ (i : Nat) (values cases : Finset Path),
      (∀ names caseExempt,
        (p.exportMore i values cases).screenedPath names caseExempt = true →
        p.screenedPath names caseExempt = true) ∧
      ((p.exportMore i values cases).sigScreenedOpenName opened name =
          true →
        p.sigScreenedOpenName opened name = true) := by
  unfold ProjectItems.sigScreenedPath ProjectItems.screenedPath
    ProjectItems.sigScreenedOpenName
  simp only [Bool.false_and, Bool.or_false]
  refine ⟨?_, ?_, ?_⟩
  · intro hScreened
    rw [screenedBy_iff] at hScreened ⊢
    rcases hScreened with ⟨entry, hMem, hNot, hLatest, hReach⟩
    exact ⟨entry, hMem, hNot, hLatest,
      reachesOpened_iff.2 (Or.inr hReach)⟩
  · intro hScreened hPath
    rcases screenedBy_iff.1 hScreened with
      ⟨entry, hMem, hNot, hLatest, hReach⟩
    rcases reachesOpened_iff.1 hReach with hBelow | hReach
    · exact ⟨entry, hMem, hBelow⟩
    · rw [screenedBy_iff.2 ⟨entry, hMem, hNot, hLatest, hReach⟩] at hPath
      cases hPath
  · intro i values cases
    constructor
    · intro names caseExempt hScreened
      exact screenedBy_exportMore exempt_exportMore (fun _ => rfl) hScreened
    · intro hScreened
      apply screenedBy_exportMore ?_ (fun _ => rfl) hScreened
      intro s hValue
      rw [decide_eq_true_eq] at hValue ⊢
      exact Finset.mem_union_left _ hValue

end Resolve

end Borzoi
