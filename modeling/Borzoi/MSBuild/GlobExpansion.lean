import Borzoi.MSBuild.GlobResolver

/-
  What an include expands to.

  A walk lists every file of a directory up to its depth once, whatever
  the order of the entries; selecting keeps the files that match; and
  where the sorted order is not refused it is the only one.

  Main declarations:
    * `paths`
    * `walk_exact`
    * `select_perm`
    * `Expansion`
    * `glob_expansion_exact`
-/

namespace Borzoi

namespace MSBuild

open Text

section Keys

variable {α β : Type} [LinearOrder β] {key : α → β} {l l' : List α}

/- Elements of one key are one. -/
def Untied
    (key : α → β)
    (l : List α) :
    Prop :=
  ∀ a ∈ l, ∀ b ∈ l, key a = key b → a = b

/- In a sorted list every tie shows between neighbours. -/
theorem neighbours_untied_iff
    [BEq α] [LawfulBEq α]
    [BEq β] [LawfulBEq β]
    (hSorted : l.Pairwise fun a b => key a ≤ key b) :
    (l.zip l.tail).find? (fun p => p.1 != p.2 && key p.1 == key p.2) = none ↔
      Untied key l := by
  rw [List.find?_eq_none]
  constructor
  · intro hNone
    induction l with
    | nil =>
        intro a hMem
        cases hMem
    | cons x rest ih =>
        rcases List.pairwise_cons.1 hSorted with ⟨hFirst, hRest⟩
        have hBelow : Untied key rest := by
          apply ih hRest
          intro p hMem
          cases rest with
          | nil => cases hMem
          | cons y more => exact hNone p (List.mem_cons_of_mem _ hMem)
        -- whatever ties with the first ties with its neighbour
        have hHead : ∀ b ∈ rest, key x = key b → x = b := by
          intro b hMem hSame
          cases rest with
          | nil => cases hMem
          | cons y more =>
              have hNext := hNone (x, y) List.mem_cons_self
              have hLe : key y ≤ key b := by
                rcases List.mem_cons.1 hMem with rfl | hMore
                · exact le_refl _
                · exact (List.pairwise_cons.1 hRest).1 b hMore
              have hEq : key x = key y :=
                le_antisymm (hFirst y List.mem_cons_self) (hSame ▸ hLe)
              have hSameNext : x = y := by
                by_contra hDiffer
                exact hNext (by simp [hDiffer, hEq])
              rw [hSameNext]
              exact hBelow y List.mem_cons_self b hMem (hEq.symm.trans hSame)
        intro a ha b hb hSame
        rcases List.mem_cons.1 ha with rfl | hInA
        · rcases List.mem_cons.1 hb with rfl | hInB
          · rfl
          · exact hHead b hInB hSame
        · rcases List.mem_cons.1 hb with rfl | hInB
          · exact (hHead a hInA hSame.symm).symm
          · exact hBelow a hInA b hInB hSame
  · intro hUntied p hMem hTie
    have hIn := List.of_mem_zip (a := p.1) (b := p.2) hMem
    rw [Bool.and_eq_true, bne_iff_ne, beq_iff_eq] at hTie
    exact hTie.1 (hUntied p.1 hIn.1 p.2 (List.mem_of_mem_tail hIn.2) hTie.2)

/- Without ties there is one sorted order. -/
theorem sorted_unique
    (hPerm : l.Perm l')
    (hSorted : l.Pairwise fun a b => key a ≤ key b)
    (hSorted' : l'.Pairwise fun a b => key a ≤ key b)
    (hUntied : Untied key l) :
    l = l' := by
  apply hPerm.eq_of_pairwise _ hSorted hSorted'
  intro a b ha hb hLe hGe
  exact hUntied a ha b (hPerm.mem_iff.2 hb) (le_antisymm hLe hGe)

omit [LinearOrder β] in
theorem Untied.perm
    (hPerm : l.Perm l') :
    Untied key l ↔ Untied key l' := by
  unfold Untied
  simp only [hPerm.mem_iff]

end Keys

section Fronts

variable {α : Type} [DecidableEq α]

theorem le_agreement_iff
    {first s : List α}
    {len n : Nat} :
    n ≤ (((first.take len).zip s).takeWhile fun p => p.1 == p.2).length ↔
      n ≤ len ∧ n ≤ first.length ∧ first.take n <+: s := by
  induction first generalizing len s n with
  | nil => simp; omega
  | cons a first ih =>
      cases n with
      | zero => simp
      | succ n =>
          cases len with
          | zero => simp
          | succ len =>
              cases s with
              | nil => simp
              | cons b s =>
                  by_cases hSame : a = b
                  · simp [hSame, ih, List.cons_prefix_cons]
                  · simp [hSame, List.cons_prefix_cons]

end Fronts

variable {n : Nat} {α β ε : Type}

/- Every length up to the common one is that of a common front. -/
theorem le_commonPrefixLen_iff
    {l : List (List UInt8)}
    (hSome : l ≠ []) :
    n ≤ commonPrefixLen l ↔ ∃ p, p.length = n ∧ ∀ s ∈ l, p <+: s := by
  cases l with
  | nil => exact absurd rfl hSome
  | cons first rest =>
      have hFold : ∀ len, len ≤ first.length →
          (n ≤ rest.foldl (fun len s =>
            (((first.take len).zip s).takeWhile fun p => p.1 == p.2).length)
              len ↔
            n ≤ len ∧ ∀ s ∈ rest, first.take n <+: s) := by
        induction rest with
        | nil => simp
        | cons s rest ih =>
            intro len hLe
            rw [List.foldl_cons, ih (by simp) _ (le_agreement_iff.1 (le_refl _)).2.1,
              le_agreement_iff, List.forall_mem_cons]
            constructor
            · rintro ⟨⟨hLen, -, hHere⟩, hRest⟩
              exact ⟨hLen, hHere, hRest⟩
            · rintro ⟨hLen, hHere, hRest⟩
              exact ⟨⟨hLen, hLen.trans hLe, hHere⟩, hRest⟩
      rw [commonPrefixLen, hFold _ (le_refl _)]
      constructor
      · rintro ⟨hLen, hRest⟩
        exact ⟨first.take n, List.length_take_of_le hLen,
          List.forall_mem_cons.2 ⟨List.take_prefix n first, hRest⟩⟩
      · rintro ⟨p, rfl, hAll⟩
        rcases List.forall_mem_cons.1 hAll with ⟨hFirst, hRest⟩
        have hTake := List.prefix_iff_eq_take.1 hFirst
        rw [← hTake]
        exact ⟨hFirst.length_le, hRest⟩

theorem commonPrefixLen_perm
    {l l' : List (List UInt8)}
    (hPerm : l.Perm l') :
    commonPrefixLen l = commonPrefixLen l' := by
  by_cases hSome : l = []
  · rw [hSome] at hPerm ⊢
    rw [hPerm.nil_eq]
  · have hSome' : l' ≠ [] := by
      intro hNil
      rw [hNil] at hPerm
      exact hSome hPerm.eq_nil
    have hSame : ∀ n, n ≤ commonPrefixLen l ↔ n ≤ commonPrefixLen l' := by
      intro n
      rw [le_commonPrefixLen_iff hSome, le_commonPrefixLen_iff hSome']
      simp only [hPerm.mem_iff]
    exact Nat.le_antisymm ((hSame _).1 (Nat.le_refl _))
      ((hSame _).2 (Nat.le_refl _))

section Sorting

variable {matched matched' sorted : List (List Char)}

theorem ordinal_sort_pairwise
    (l : List (List Char)) :
    (l.mergeSort fun a b => decide (ordinalKey a ≤ ordinalKey b)).Pairwise
      fun a b => ordinalKey a ≤ ordinalKey b := by
  have hTrans : ∀ a b c : List Char, decide (ordinalKey a ≤ ordinalKey b) →
      decide (ordinalKey b ≤ ordinalKey c) →
      decide (ordinalKey a ≤ ordinalKey c) := by
    intro a b c hab hbc
    rw [decide_eq_true_eq] at *
    exact le_trans hab hbc
  have hTotal : ∀ a b : List Char, (decide (ordinalKey a ≤ ordinalKey b) ||
      decide (ordinalKey b ≤ ordinalKey a)) := by
    intro a b
    rw [Bool.or_eq_true, decide_eq_true_eq, decide_eq_true_eq]
    exact le_total _ _
  exact (List.pairwise_mergeSort hTrans hTotal l).imp of_decide_eq_true

/- What is sorted, and in the one order that there is. -/
theorem sortLikeMsbuild_ok
    (hOk : sortLikeMsbuild matched = .ok sorted) :
    sorted.Perm matched ∧
      sorted.Pairwise fun a b => ordinalKey a ≤ ordinalKey b := by
  unfold sortLikeMsbuild at hOk
  split at hOk
  · next hShort =>
      cases hOk
      refine ⟨.refl _, ?_⟩
      cases matched with
      | nil => exact .nil
      | cons a rest =>
          cases rest with
          | nil => exact List.pairwise_singleton _ _
          | cons b more =>
              rw [List.length_cons, List.length_cons] at hShort
              omega
  · dsimp only at hOk
    split at hOk
    · cases hOk
    · split at hOk
      · cases hOk
      · cases hOk
        exact ⟨List.mergeSort_perm _ _, ordinal_sort_pairwise _⟩

theorem sortLikeMsbuild_perm
    (hPerm : matched.Perm matched') :
    (sortLikeMsbuild matched).toOption = (sortLikeMsbuild matched').toOption := by
  have hFind : ∀ p : List Char → Bool,
      matched.find? p = none ↔ matched'.find? p = none := by
    intro p
    rw [List.find?_eq_none, List.find?_eq_none]
    simp only [hPerm.mem_iff]
  unfold sortLikeMsbuild
  rw [hPerm.length_eq, commonPrefixLen_perm (hPerm.map utf8)]
  by_cases hShort : matched'.length < 2
  · have hSame : matched = matched' := by
      cases matched' with
      | nil => exact hPerm.eq_nil
      | cons a rest =>
          cases rest with
          | nil => exact List.perm_singleton.1 hPerm
          | cons b more =>
              rw [List.length_cons, List.length_cons] at hShort
              omega
    rw [hSame]
  · rw [if_neg hShort, if_neg hShort]
    dsimp only
    cases hAscii : matched.find? _ with
    | some path =>
        have hOther := mt (hFind _).2 (hAscii ▸ Option.some_ne_none path)
        rcases Option.ne_none_iff_exists'.1 hOther with ⟨path', hPath⟩
        rw [hPath]
        rfl
    | none =>
        have hSorted : (matched.mergeSort fun a b =>
            decide (ordinalKey a ≤ ordinalKey b)).Perm
              (matched'.mergeSort fun a b =>
                decide (ordinalKey a ≤ ordinalKey b)) :=
          (List.mergeSort_perm _ _).trans
            (hPerm.trans (List.mergeSort_perm _ _).symm)
        have hTied := neighbours_untied_iff (ordinal_sort_pairwise matched)
        have hTied' := neighbours_untied_iff (ordinal_sort_pairwise matched')
        rw [(hFind _).1 hAscii]
        dsimp only
        by_cases hOne : Untied ordinalKey
            (matched.mergeSort fun a b => decide (ordinalKey a ≤ ordinalKey b))
        · rw [← sorted_unique hSorted (ordinal_sort_pairwise matched)
            (ordinal_sort_pairwise matched') hOne]
        · have hNone := mt hTied.1 hOne
          have hNone' := mt hTied'.1 (mt (Untied.perm hSorted).2 hOne)
          rcases Option.ne_none_iff_exists'.1 hNone with ⟨pair, hPair⟩
          rcases Option.ne_none_iff_exists'.1 hNone' with ⟨pair', hPair'⟩
          rw [hPair, hPair']
          rfl

end Sorting

theorem toOption_bind
    (x : Except ε α)
    (f : α → Except ε β) :
    (x.bind f).toOption = x.toOption.bind fun a => (f a).toOption := by
  cases x with
  | error e => rfl
  | ok a => rfl

theorem toOption_map
    (x : Except ε α)
    (f : α → β) :
    (x.map f).toOption = x.toOption.map f := by
  cases x with
  | error e => rfl
  | ok a => rfl

theorem toOption_mapM_congr
    {f g : α → Except ε β}
    {l : List α}
    (hSame : ∀ a ∈ l, (f a).toOption = (g a).toOption) :
    (l.mapM f).toOption = (l.mapM g).toOption := by
  induction l with
  | nil => rfl
  | cons a rest ih =>
      rcases List.forall_mem_cons.1 hSame with ⟨hFirst, hRest⟩
      rw [List.mapM_cons, List.mapM_cons]
      change (Except.bind _ _).toOption = (Except.bind _ _).toOption
      rw [toOption_bind, toOption_bind, hFirst]
      congr 1
      funext b
      change (Except.bind _ _).toOption = (Except.bind _ _).toOption
      rw [toOption_bind, toOption_bind, ih hRest]

theorem forall₂_of_mapM
    {f : α → Except ε β}
    {l : List α}
    {out : List β}
    (hOk : l.mapM f = .ok out) :
    List.Forall₂ (fun a b => f a = .ok b) l out := by
  induction l generalizing out with
  | nil =>
      cases hOk
      exact .nil
  | cons a rest ih =>
      rw [List.mapM_cons] at hOk
      cases hFirst : f a with
      | error e =>
          rw [hFirst] at hOk
          cases hOk
      | ok b =>
          rw [hFirst] at hOk
          cases hRest : rest.mapM f with
          | error e =>
              change (rest.mapM f).bind _ = _ at hOk
              rw [hRest] at hOk
              cases hOk
          | ok bs =>
              change (rest.mapM f).bind _ = _ at hOk
              rw [hRest] at hOk
              cases hOk
              exact .cons hFirst (ih hRest)

section Selecting

variable {included : Pattern} {excludes : List Pattern}
variable {candidates candidates' : List (List Char)}

theorem gather_eq :
    (gather included excludes candidates).toOption =
      if candidates.all fun c =>
          (selectedBothWays included excludes c).1 ==
            (selectedBothWays included excludes c).2 then
        some ((candidates.filter fun c =>
          (selectedBothWays included excludes c).1).map
            fun c => joined (splitSegments c))
      else
        none := by
  induction candidates with
  | nil => rfl
  | cons c rest ih =>
      rw [gather]
      dsimp only
      by_cases hSame : (selectedBothWays included excludes c).1 =
          (selectedBothWays included excludes c).2
      · rw [if_neg (not_not.2 hSame), toOption_map, ih, List.all_cons,
          beq_iff_eq.2 hSame, Bool.true_and]
        by_cases hExact : (selectedBothWays included excludes c).1 = true
        · simp only [List.filter_cons, hExact, if_true]
          split
          · rfl
          · rfl
        · simp only [List.filter_cons, if_neg hExact]
          split
          · rfl
          · rfl
      · rw [if_pos hSame, List.all_cons, beq_eq_false_iff_ne.2 hSame,
          Bool.false_and]
        rfl

/- The selection is one of the candidates as a set. -/
theorem select_perm
    (includes : List Pattern)
    (hPerm : candidates.Perm candidates') :
    (select candidates includes excludes).toOption =
      (select candidates' includes excludes).toOption := by
  unfold select
  rw [toOption_map, toOption_map]
  congr 1
  apply toOption_mapM_congr
  intro included _
  rw [toOption_bind, toOption_bind, gather_eq, gather_eq, hPerm.all_eq]
  split
  · exact sortLikeMsbuild_perm ((hPerm.filter _).map _)
  · rfl

theorem select_single :
    select candidates [included] excludes =
      (gather included excludes candidates).bind sortLikeMsbuild := by
  unfold select
  rw [List.mapM_cons]
  cases (gather included excludes candidates).bind sortLikeMsbuild with
  | error e => rfl
  | ok sorted => exact congrArg Except.ok (List.append_nil sorted)

theorem select_ok
    {out : List (List Char)}
    (hOk : select candidates [included] excludes = .ok out) :
    out.Perm ((candidates.filter fun c =>
        (selectedBothWays included excludes c).1).map
          fun c => joined (splitSegments c)) ∧
      out.Pairwise fun a b => ordinalKey a ≤ ordinalKey b := by
  rw [select_single] at hOk
  cases hGather : gather included excludes candidates with
  | error e =>
      rw [hGather] at hOk
      cases hOk
  | ok matched =>
      rw [hGather] at hOk
      have hEq := @gather_eq included excludes candidates
      rw [hGather] at hEq
      split at hEq
      · rw [← Option.some.inj hEq]
        exact sortLikeMsbuild_ok hOk
      · cases hEq

end Selecting

/- A name that is one segment of a path. -/
def isSegment
    (s : List Char) :
    Bool :=
  !s.isEmpty && s.all (fun c => c != '/' && c != '\\') && s != ['.']

section Segments

variable {segs segs' : List (List Char)} {s : List Char}

theorem isSegment_iff :
    isSegment s = true ↔
      s ≠ [] ∧ (∀ c ∈ s, (c == '/' || c == '\\') = false) ∧ s ≠ ['.'] := by
  simp [isSegment, and_assoc]

theorem joined_cons
    (s : List Char)
    (hSome : segs ≠ []) :
    joined (s :: segs) = s ++ '/' :: joined segs := by
  cases segs with
  | nil => exact absurd rfl hSome
  | cons t rest =>
      unfold joined
      rw [List.intercalate_cons_cons, List.append_assoc]
      rfl

theorem splitSegments_joined
    (hSegs : ∀ s ∈ segs, isSegment s = true) :
    splitSegments (joined segs) = segs := by
  cases segs with
  | nil => decide
  | cons s rest =>
      have hSplit : (joined (s :: rest)).splitOnP
          (fun c => c == '/' || c == '\\') = s :: rest := by
        induction rest generalizing s with
        | nil =>
            unfold joined
            rw [List.intercalate_singleton]
            apply List.splitOnP_eq_singleton
            exact (isSegment_iff.1 (hSegs s List.mem_cons_self)).2.1
        | cons t rest ih =>
            rcases List.forall_mem_cons.1 hSegs with ⟨hFirst, hRest⟩
            rw [joined_cons s (List.cons_ne_nil t rest),
              List.splitOnP_append_cons_of_forall_mem _ '/' rfl, ih t hRest]
            exact (isSegment_iff.1 hFirst).2.1
      unfold splitSegments
      rw [hSplit, List.filter_eq_self.2]
      intro t hMem
      have hSegment := isSegment_iff.1 (hSegs t hMem)
      simp [hSegment.1, hSegment.2.2]

theorem mem_splitSegments
    {raw : List Char}
    (hMem : s ∈ splitSegments raw) :
    isSegment s = true := by
  rcases List.mem_filter.1 hMem with ⟨hPart, hKept⟩
  rw [Bool.and_eq_true, Bool.not_eq_true', bne_iff_ne] at hKept
  exact isSegment_iff.2 ⟨List.isEmpty_eq_false_iff.1 hKept.1,
    fun c hChar => (mem_splitOnP hPart hChar).2, hKept.2⟩

theorem joined_inj
    (hSegs : ∀ s ∈ segs, isSegment s = true)
    (hSegs' : ∀ s ∈ segs', isSegment s = true)
    (hSame : joined segs = joined segs') :
    segs = segs' := by
  rw [← splitSegments_joined hSegs, hSame, splitSegments_joined hSegs']

/- One path below another has the segments of both. -/
theorem attach_joined
    (hSegs : ∀ s ∈ segs, isSegment s = true)
    (hSome : segs' ≠ []) :
    attach (joined segs) (joined segs') = joined (segs ++ segs') := by
  induction segs with
  | nil => rfl
  | cons s rest ih =>
      rcases List.forall_mem_cons.1 hSegs with ⟨hFirst, hRest⟩
      have hAll : rest ++ segs' ≠ [] := List.append_ne_nil_of_right_ne_nil _ hSome
      have hBelow := ih hRest
      unfold attach at hBelow ⊢
      rw [List.cons_append, joined_cons s hAll, ← hBelow]
      cases rest with
      | nil =>
          have hAlone : joined [s] = s := List.intercalate_singleton
          rw [hAlone, if_neg (isSegment_iff.1 hFirst).1]
          rfl
      | cons t more =>
          have hTail : joined (t :: more) ≠ [] := by
            intro hNil
            have hSplit := splitSegments_joined hRest
            rw [hNil] at hSplit
            cases hSplit
          rw [joined_cons s (List.cons_ne_nil t more), if_neg hTail, if_neg,
            List.append_assoc, List.cons_append]
          exact List.append_ne_nil_of_left_ne_nil (isSegment_iff.1 hFirst).1 _

theorem attach_injective
    (pre : List Char) :
    Function.Injective (attach pre) := by
  intro a b hSame
  unfold attach at hSame
  split at hSame
  · exact hSame
  · exact (List.cons.inj (List.append_cancel_left hSame)).2

end Segments

------------------------------------------------------------
-- Trees
------------------------------------------------------------

inductive Kind
  | File
  | Dir
  deriving DecidableEq

/- The entries of a tree by the names that lead to them. -/
def paths :
    List Entry → List (Kind × List (List Char))
  | [] => []
  | .File name :: rest => (.File, [name]) :: paths rest
  | .Dir name inner :: rest =>
      (.Dir, [name]) :: (paths inner).map (fun p => (p.1, name :: p.2)) ++
        paths rest

/- Names are segments, and no two entries stand at one path. -/
structure WellNamed
    (entries : List Entry) :
    Prop where
  segments : ∀ p ∈ paths entries, ∀ s ∈ p.2, isSegment s = true
  distinct : ((paths entries).map Prod.snd).Nodup

/- The files up to a depth. -/
def listed
    (maxDepth depth : Nat)
    (pre : List (List Char))
    (entries : List Entry) :
    List (List Char) :=
  ((paths entries).filter fun p =>
    p.1 == .File && decide (p.2.length + depth ≤ maxDepth)).map
      fun p => joined (pre ++ p.2)

/- A directory stands at the depth bound. -/
def deep
    (maxDepth depth : Nat)
    (entries : List Entry) :
    Bool :=
  (paths entries).any fun p =>
    p.1 == .Dir && p.2.length + depth == maxDepth

section Trees

variable {k : Kind} {entries inner : List Entry} {name : List Char}
variable {pre names dir : List (List Char)} {maxDepth depth : Nat}
variable {recursive : Bool}

theorem mem_paths_file
    {p : Kind × List (List Char)} :
    p ∈ paths (.File name :: entries) ↔
      p = (.File, [name]) ∨ p ∈ paths entries := by
  rw [paths, List.mem_cons]

theorem mem_paths_dir
    {p : Kind × List (List Char)} :
    p ∈ paths (.Dir name inner :: entries) ↔
      p = (.Dir, [name]) ∨ (∃ q ∈ paths inner, (q.1, name :: q.2) = p) ∨
        p ∈ paths entries := by
  rw [paths, List.mem_append, List.mem_cons, List.mem_map, or_assoc]

theorem paths_some
    {p : Kind × List (List Char)}
    (hMem : p ∈ paths entries) :
    p.2 ≠ [] := by
  induction entries using paths.induct with
  | case1 =>
      rw [paths] at hMem
      cases hMem
  | case2 name rest ih =>
      rcases mem_paths_file.1 hMem with rfl | hRest
      · exact List.cons_ne_nil _ _
      · exact ih hRest
  | case3 name inner rest _ ih =>
      rcases mem_paths_dir.1 hMem with rfl | ⟨q, -, rfl⟩ | hRest
      · exact List.cons_ne_nil _ _
      · exact List.cons_ne_nil _ _
      · exact ih hRest

theorem deep_dir :
    deep maxDepth depth (.Dir name inner :: entries) =
      (depth + 1 == maxDepth || deep maxDepth (depth + 1) inner ||
        deep maxDepth depth entries) := by
  simp [deep, paths, Function.comp_def, Nat.add_comm, Nat.add_left_comm,
    Bool.or_assoc]

theorem listed_file
    (hDepth : depth < maxDepth) :
    listed maxDepth depth pre (.File name :: entries) =
      joined (pre ++ [name]) :: listed maxDepth depth pre entries := by
  have hIn : 1 + depth ≤ maxDepth := by omega
  simp [listed, paths, hIn]

theorem listed_dir :
    listed maxDepth depth pre (.Dir name inner :: entries) =
      listed maxDepth (depth + 1) (pre ++ [name]) inner ++
        listed maxDepth depth pre entries := by
  simp [listed, paths, List.filter_map, Function.comp_def, Nat.add_comm,
    Nat.add_left_comm]

/- Nothing below the bound is listed. -/
theorem listed_beyond
    (hDepth : maxDepth ≤ depth) :
    listed maxDepth depth pre entries = [] := by
  unfold listed
  rw [List.map_eq_nil_iff, List.filter_eq_nil_iff]
  intro p hMem hKept
  rw [Bool.and_eq_true, decide_eq_true_eq] at hKept
  have hPos := List.length_pos_iff.2 (paths_some hMem)
  omega

theorem attach_name
    (hPre : ∀ s ∈ pre, isSegment s = true)
    (name : List Char) :
    attach (joined pre) name = joined (pre ++ [name]) := by
  rw [← attach_joined hPre (List.cons_ne_nil name [])]
  congr 1
  exact List.intercalate_singleton.symm

/- A walk lists the files up to its depth, or meets a directory there. -/
theorem walk_exact
    (hSegments : ∀ p ∈ paths entries, ∀ s ∈ p.2, isSegment s = true)
    (hPre : ∀ s ∈ pre, isSegment s = true)
    (hDepth : depth < maxDepth) :
    (walk maxDepth recursive dir (joined pre) depth entries).toOption =
      if recursive && deep maxDepth depth entries then
        none
      else
        some (listed maxDepth depth pre entries) := by
  induction entries using paths.induct generalizing dir pre depth with
  | case1 => simp [walk, deep, listed, paths]; rfl
  | case2 name rest ih =>
      have hDeep : deep maxDepth depth (.File name :: rest) =
          deep maxDepth depth rest := by
        simp [deep, paths]
      rw [walk, toOption_map, hDeep, listed_file hDepth, attach_name hPre,
        ih (fun p hMem => hSegments p (mem_paths_file.2 (Or.inr hMem))) hPre
          hDepth]
      split
      · rfl
      · rfl
  | case3 name inner rest ihInner ih =>
      have hName : isSegment name = true :=
        hSegments _ (mem_paths_dir.2 (Or.inl rfl)) name List.mem_cons_self
      have hInner : ∀ p ∈ paths inner, ∀ s ∈ p.2, isSegment s = true := by
        intro p hMem s hSeg
        exact hSegments _ (mem_paths_dir.2 (Or.inr (Or.inl ⟨p, hMem, rfl⟩))) s
          (List.mem_cons_of_mem name hSeg)
      have hPre' : ∀ s ∈ pre ++ [name], isSegment s = true := by
        intro s hMem
        rcases List.mem_append.1 hMem with hOld | hNew
        · exact hPre s hOld
        · exact List.mem_singleton.1 hNew ▸ hName
      have hBelow : (withinDepth maxDepth recursive (dir ++ [name]) (depth + 1)
          (walk maxDepth recursive (dir ++ [name]) (joined (pre ++ [name]))
            (depth + 1) inner)).toOption =
          if recursive && (depth + 1 == maxDepth ||
              deep maxDepth (depth + 1) inner) then
            none
          else
            some (listed maxDepth (depth + 1) (pre ++ [name]) inner) := by
        unfold withinDepth
        by_cases hBound : maxDepth ≤ depth + 1
        · have hSame : depth + 1 = maxDepth := by omega
          rw [if_pos hBound, listed_beyond hBound, hSame, beq_self_eq_true,
            Bool.true_or, Bool.and_true]
          cases recursive with
          | false => rfl
          | true => rfl
        · have hOther : (depth + 1 == maxDepth) = false :=
            beq_eq_false_iff_ne.2 (by omega)
          rw [if_neg hBound, hOther, Bool.false_or]
          exact ihInner hInner hPre' (by omega)
      rw [walk, toOption_bind, deep_dir, listed_dir, attach_name hPre, hBelow,
        Bool.and_or_distrib_left recursive _ (deep maxDepth depth rest)]
      generalize (recursive && (depth + 1 == maxDepth ||
        deep maxDepth (depth + 1) inner)) = stopped
      cases stopped with
      | true => rfl
      | false =>
          rw [if_neg Bool.false_ne_true, Option.bind_some, toOption_map,
            Bool.false_or, ih (fun p hMem => hSegments p
              (mem_paths_dir.2 (Or.inr (Or.inr hMem)))) hPre hDepth]
          split
          · rfl
          · rfl

/- Every proper front of a path is the path of a directory. -/
theorem paths_front
    (hMem : (k, names) ∈ paths entries)
    (hPos : 0 < n)
    (hLt : n < names.length) :
    (.Dir, names.take n) ∈ paths entries := by
  induction entries using paths.induct generalizing names n with
  | case1 =>
      rw [paths] at hMem
      cases hMem
  | case2 name rest ih =>
      rcases mem_paths_file.1 hMem with hSame | hRest
      · cases hSame
        rw [List.length_singleton] at hLt
        omega
      · exact mem_paths_file.2 (Or.inr (ih hRest hPos hLt))
  | case3 name inner rest ihInner ih =>
      rcases mem_paths_dir.1 hMem with hSame | ⟨q, hInner, hSame⟩ | hRest
      · cases hSame
        rw [List.length_singleton] at hLt
        omega
      · cases hSame
        cases n with
        | zero => cases hPos
        | succ n =>
            cases n with
            | zero => exact mem_paths_dir.2 (Or.inl rfl)
            | succ n =>
                have hFront := ihInner hInner (Nat.succ_pos n)
                  (Nat.lt_of_succ_lt_succ hLt)
                exact mem_paths_dir.2 (Or.inr (Or.inl ⟨_, hFront, rfl⟩))
      · exact mem_paths_dir.2 (Or.inr (Or.inr (ih hRest hPos hLt)))

theorem mem_listed
    {rel : List Char} :
    rel ∈ listed maxDepth depth pre entries ↔
      ∃ names, (.File, names) ∈ paths entries ∧
        names.length + depth ≤ maxDepth ∧ joined (pre ++ names) = rel := by
  unfold listed
  rw [List.mem_map]
  constructor
  · rintro ⟨⟨k, names⟩, hMem, hSame⟩
    rcases List.mem_filter.1 hMem with ⟨hIn, hKept⟩
    rw [Bool.and_eq_true, beq_iff_eq, decide_eq_true_eq] at hKept
    exact ⟨names, hKept.1 ▸ hIn, hKept.2, hSame⟩
  · rintro ⟨names, hIn, hLe, hSame⟩
    refine ⟨(.File, names), List.mem_filter.2 ⟨hIn, ?_⟩, hSame⟩
    rw [Bool.and_eq_true, decide_eq_true_eq]
    exact ⟨rfl, hLe⟩

theorem listed_nodup
    (hNamed : WellNamed entries)
    (hPre : ∀ s ∈ pre, isSegment s = true) :
    (listed maxDepth depth pre entries).Nodup := by
  have hNames : ((paths entries).filter fun p => p.1 == .File &&
      decide (p.2.length + depth ≤ maxDepth)).Nodup :=
    hNamed.distinct.of_map.filter _
  apply hNames.map_on
  intro p hP q hQ hSame
  have hInP := List.mem_of_mem_filter hP
  have hInQ := List.mem_of_mem_filter hQ
  have hSegments : ∀ r ∈ paths entries, ∀ s ∈ pre ++ r.2,
      isSegment s = true := by
    intro r hIn s hMem
    exact (List.mem_append.1 hMem).elim (hPre s) (hNamed.segments r hIn s)
  have hAll := joined_inj (hSegments p hInP) (hSegments q hInQ) hSame
  exact List.inj_on_of_nodup_map hNamed.distinct hInP hInQ
    (List.append_cancel_left hAll)

/- The same tree, whatever the order of its directories' entries. -/
def SameTree
    (entries entries' : List Entry) :
    Prop :=
  ∀ p, p ∈ paths entries ↔ p ∈ paths entries'

variable {entries' : List Entry}

theorem listed_same
    (hNamed : WellNamed entries)
    (hNamed' : WellNamed entries')
    (hSame : SameTree entries entries')
    (hPre : ∀ s ∈ pre, isSegment s = true) :
    (listed maxDepth depth pre entries).Perm
      (listed maxDepth depth pre entries') := by
  apply (List.perm_ext_iff_of_nodup (listed_nodup hNamed hPre)
    (listed_nodup hNamed' hPre)).2
  intro rel
  rw [mem_listed, mem_listed]
  simp only [hSame _]

theorem deep_same
    (hSame : SameTree entries entries') :
    deep maxDepth depth entries = deep maxDepth depth entries' := by
  unfold deep
  rw [Bool.eq_iff_iff, List.any_eq_true, List.any_eq_true]
  simp only [hSame _]

end Trees

/- Without stars a token takes an element each. -/
theorem matchRun_length
    {τ α : Type}
    {isStar : τ → Bool}
    {accepts : τ → α → Bool}
    {toks : List τ}
    {s : List α}
    (hPlain : ∀ t ∈ toks, isStar t = false)
    (hMatch : Wildcard.matchRun isStar accepts toks s = true) :
    s.length = toks.length := by
  induction toks generalizing s with
  | nil =>
      rw [List.isEmpty_iff.1 hMatch]
      rfl
  | cons t rest ih =>
      rcases List.forall_mem_cons.1 hPlain with ⟨hFirst, hRest⟩
      cases s with
      | nil =>
          rw [Wildcard.matchRun_one_nil hFirst] at hMatch
          cases hMatch
      | cons x s =>
          rw [Wildcard.matchRun_one hFirst, Bool.and_eq_true] at hMatch
          rw [List.length_cons, List.length_cons, ih hRest hMatch.2]

section Anchors

variable {req : GlobRequest} {fragment : List Char}

theorem anchor_segments :
    ∀ s ∈ req.anchorSegs fragment, isSegment s = true := by
  intro s hMem
  have hPre : ∀ s ∈ (splitGlobRoot (withSlashes fragment)).pre,
      isSegment s = true :=
    fun s hIn => mem_splitSegments (List.mem_of_mem_take hIn)
  unfold GlobRequest.anchorSegs at hMem
  dsimp only at hMem
  split at hMem
  · exact hPre s hMem
  · exact (List.mem_append.1 hMem).elim mem_splitSegments (hPre s)

/- The segments of the base directory are taken as they are. -/
theorem flatMap_splitSegments
    {segs : List (List Char)}
    (hSegs : ∀ s ∈ segs, isSegment s = true) :
    segs.flatMap splitSegments = segs := by
  induction segs with
  | nil => rfl
  | cons s rest ih =>
      rcases List.forall_mem_cons.1 hSegs with ⟨hFirst, hRest⟩
      have hAlone : splitSegments s = [s] := by
        have hSplit := @splitSegments_joined [s]
          fun t hMem => List.mem_singleton.1 hMem ▸ hFirst
        have hJoined : joined [s] = s := List.intercalate_singleton
        rwa [hJoined] at hSplit
      rw [List.flatMap_cons, hAlone, ih hRest, List.singleton_append]

/- Without `**` what matches lies as deep as the tail says. -/
theorem anchored_length
    {key : List Char}
    {d : Nat}
    (hDepth : (splitGlobRoot (withSlashes fragment)).tailDepth = some d)
    (hMatch : (req.anchored fragment).matches key = true) :
    (splitSegments key).length = (req.anchorSegs fragment).length + d := by
  unfold GlobRequest.anchored Pattern.matches at hMatch
  unfold GlobRequest.anchorSegs
  dsimp only at hMatch ⊢
  generalize withSlashes fragment = norm at hDepth hMatch ⊢
  have hPlain : ∀ seg ∈ (Pattern.parse norm).segs, Seg.isStar seg = false := by
    intro seg hMem
    rcases List.mem_map.1 hMem with ⟨s, hIn, rfl⟩
    have hSingle : s ≠ ['*', '*'] := by
      rintro rfl
      rw [← List.take_append_drop ((splitSegments norm).takeWhile
        fun s => !isWild s).length (splitSegments norm)] at hIn
      rcases List.mem_append.1 hIn with hPre | hTail
      · rw [← List.prefix_iff_eq_take.1 (List.takeWhile_prefix _)] at hPre
        have hNot := List.mem_takeWhile_imp hPre
        revert hNot
        decide
      · have hNone : (splitGlobRoot norm).tailDepth = none :=
          if_pos (List.contains_iff_mem.2 hTail)
        rw [hNone] at hDepth
        cases hDepth
    unfold Seg.ofText
    rw [if_neg hSingle]
    rfl
  have hLength : (Pattern.parse norm).segs.length =
      (splitGlobRoot norm).pre.length + d := by
    have hTail : d = ((splitSegments norm).drop ((splitSegments norm).takeWhile
        fun s => !isWild s).length).length := by
      unfold splitGlobRoot at hDepth
      dsimp only at hDepth
      split at hDepth
      · cases hDepth
      · exact (Option.some.inj hDepth).symm
    rw [hTail, ← List.length_append]
    change ((splitSegments norm).map _).length =
      (List.take _ _ ++ List.drop _ _).length
    rw [List.length_map, List.take_append_drop]
  split at hMatch
  · next hAbsolute =>
      rw [if_pos hAbsolute, ← hLength]
      unfold pathMatch at hMatch
      rw [Wildcard.scan_start] at hMatch
      exact matchRun_length hPlain hMatch
  · next hRelative =>
      unfold pathMatch at hMatch
      rw [Wildcard.scan_start] at hMatch
      rw [if_neg hRelative, List.length_append, Nat.add_assoc, ← hLength,
        matchRun_length _ hMatch]
      · unfold Pattern.withLiteralPrefix
        dsimp only
        have hBase : req.baseSegs.flatMap splitSegments = req.baseSegs :=
          flatMap_splitSegments fun s hMem => mem_splitSegments hMem
        rw [List.length_append, List.length_map, hBase]
      · intro seg hMem
        rcases List.mem_append.1 hMem with hBase | hGlob
        · rcases List.mem_map.1 hBase with ⟨s, -, rfl⟩
          rfl
        · exact hPlain seg hGlob

end Anchors

------------------------------------------------------------
-- Expansions
------------------------------------------------------------

/- What a fragment with a wildcard expands to. -/
structure Expansion
    (readDir : ReadDir)
    (req : GlobRequest)
    (fragment : List Char)
    (block : List (List Char)) :
    Prop where
  exact : ∀ path, path ∈ block ↔ ∃ entries names,
    readDir (req.anchorSegs fragment) = some entries ∧
      (.File, names) ∈ paths entries ∧
      path = '/' :: joined (req.anchorSegs fragment ++ names) ∧
      (req.anchored fragment).matches
        (joined (req.anchorSegs fragment ++ names)) = true ∧
      ∀ e ∈ req.patterns,
        e.matches (joined (req.anchorSegs fragment ++ names)) = false
  distinct : block.Nodup
  sorted : block.Pairwise fun a b => ordinalKey a ≤ ordinalKey b

section Expanding

variable {readDir readDir' : ReadDir} {req : GlobRequest}
variable {base : List (List Char)} {maxDepth : Nat} {recursive : Bool}
variable {fragment : List Char}

/- The listings of the two systems are those of the same trees. -/
structure SameSystem
    (readDir readDir' : ReadDir) :
    Prop where
  named : ∀ segs, ∀ entries ∈ readDir segs, WellNamed entries
  named' : ∀ segs, ∀ entries ∈ readDir' segs, WellNamed entries
  same : ∀ segs, Option.Rel SameTree (readDir segs) (readDir' segs)

theorem enumerateFiles_exact
    (hNamed : ∀ entries ∈ readDir base, WellNamed entries)
    (hBound : recursive = true → 0 < maxDepth) :
    (enumerateFiles readDir base maxDepth recursive).toOption =
      (readDir base).elim (some []) fun entries =>
        if recursive && deep maxDepth 0 entries then
          none
        else
          some (listed maxDepth 0 [] entries) := by
  unfold enumerateFiles withinDepth
  by_cases hNone : maxDepth ≤ 0
  · have hFlat : recursive = false := by
      rw [Bool.eq_false_iff]
      exact fun hTrue => Nat.not_le.2 (hBound hTrue) hNone
    rw [if_pos hNone, hFlat]
    cases readDir base with
    | none => rfl
    | some entries => exact congrArg some (listed_beyond hNone).symm
  · rw [if_neg hNone]
    cases hDir : readDir base with
    | none => rfl
    | some entries =>
        exact walk_exact (hNamed entries hDir).segments (List.forall_mem_nil _)
          (Nat.lt_of_not_le hNone)

/- The bound of a fragment without `**` is its own. -/
theorem recursive_bound
    {tail : Option Nat}
    (hNone : tail.isNone = true) :
    0 < tail.getD GlobRequest.MAX_GLOB_DEPTH := by
  rw [Option.isNone_iff_eq_none.1 hNone]
  decide

theorem expand_same
    (hSame : SameSystem readDir readDir') :
    (req.expand readDir fragment).toOption =
      (req.expand readDir' fragment).toOption := by
  unfold GlobRequest.expand
  dsimp only
  split
  · have hNamed := hSame.named (req.anchorSegs fragment)
    have hNamed' := hSame.named' (req.anchorSegs fragment)
    have hRel := hSame.same (req.anchorSegs fragment)
    rw [toOption_bind, toOption_bind,
      enumerateFiles_exact hNamed recursive_bound,
      enumerateFiles_exact hNamed' recursive_bound]
    generalize readDir (req.anchorSegs fragment) = found at *
    generalize readDir' (req.anchorSegs fragment) = found' at *
    cases hRel with
    | none => rfl
    | some hTree =>
        rw [Option.elim_some, Option.elim_some, deep_same hTree]
        split
        · rfl
        · rw [Option.bind_some, Option.bind_some, toOption_map, toOption_map,
            select_perm _ ((listed_same (hNamed _ rfl) (hNamed' _ rfl) hTree
              (List.forall_mem_nil _)).map _)]
  · rfl

variable {block : List (List Char)}

/- What the walk of a fragment hands to the selection. -/
theorem expand_keys
    (hNamed : ∀ entries ∈ readDir (req.anchorSegs fragment), WellNamed entries)
    (hGlob : (req.anchored fragment).isGlob = true)
    (hOk : req.expand readDir fragment = .ok block) :
    ∃ keys selected, keys.Nodup ∧
      select keys [req.anchored fragment] req.patterns = .ok selected ∧
      block = selected.map ('/' :: ·) ∧
      (∀ key ∈ keys, ∃ entries names,
        readDir (req.anchorSegs fragment) = some entries ∧
          (.File, names) ∈ paths entries ∧
          key = joined (req.anchorSegs fragment ++ names)) ∧
      ∀ entries names, readDir (req.anchorSegs fragment) = some entries →
        (.File, names) ∈ paths entries →
        (∀ d, (splitGlobRoot (withSlashes fragment)).tailDepth = some d →
          names.length ≤ d) →
        joined (req.anchorSegs fragment ++ names) ∈ keys := by
  unfold GlobRequest.expand at hOk
  dsimp only at hOk
  rw [if_pos hGlob] at hOk
  generalize (splitGlobRoot (withSlashes fragment)).tailDepth = tail at hOk ⊢
  have hExact := enumerateFiles_exact hNamed (@recursive_bound tail)
  cases hFiles : enumerateFiles readDir (req.anchorSegs fragment)
      (tail.getD GlobRequest.MAX_GLOB_DEPTH) tail.isNone with
  | error e =>
      rw [hFiles] at hOk
      cases hOk
  | ok files =>
      rw [hFiles] at hOk hExact
      have hListed : (files = [] ∧ readDir (req.anchorSegs fragment) = none) ∨
          ∃ entries, readDir (req.anchorSegs fragment) = some entries ∧
            files = listed (tail.getD GlobRequest.MAX_GLOB_DEPTH) 0 [] entries ∧
            ¬ (tail.isNone && deep (tail.getD GlobRequest.MAX_GLOB_DEPTH) 0
              entries) = true := by
        cases hDir : readDir (req.anchorSegs fragment) with
        | none =>
            rw [hDir] at hExact
            exact Or.inl ⟨Option.some.inj hExact, rfl⟩
        | some entries =>
            rw [hDir, Option.elim_some] at hExact
            split at hExact
            · cases hExact
            · next hShallow =>
                exact Or.inr ⟨entries, rfl, Option.some.inj hExact, hShallow⟩
      cases hSelect : select (files.map (attach (joined (req.anchorSegs fragment))))
          [req.anchored fragment] req.patterns with
      | error e =>
          change (select _ _ _).map _ = _ at hOk
          rw [hSelect] at hOk
          cases hOk
      | ok selected =>
          change (select _ _ _).map _ = _ at hOk
          rw [hSelect] at hOk
          refine ⟨_, selected, ?_, hSelect, (Except.ok.inj hOk).symm, ?_⟩
          · apply List.Nodup.map (attach_injective _)
            rcases hListed with ⟨rfl, -⟩ | ⟨entries, hDir, rfl, -⟩
            · exact List.nodup_nil
            · exact listed_nodup (hNamed entries hDir) (List.forall_mem_nil _)
          · have hAttach : ∀ entries names, (.File, names) ∈ paths entries →
                attach (joined (req.anchorSegs fragment)) (joined names) =
                  joined (req.anchorSegs fragment ++ names) :=
              fun _ _ hIn => attach_joined anchor_segments (paths_some hIn)
            rcases hListed with ⟨rfl, hNone⟩ | ⟨entries, hDir, rfl, hShallow⟩
            · refine ⟨fun _ hMem => absurd hMem List.not_mem_nil, ?_⟩
              intro entries names hDir
              rw [hNone] at hDir
              cases hDir
            · constructor
              · intro key hMem
                rcases List.mem_map.1 hMem with ⟨rel, hRel, rfl⟩
                rcases mem_listed.1 hRel with ⟨names, hIn, -, rfl⟩
                exact ⟨entries, names, hDir, hIn, hAttach entries names hIn⟩
              · intro entries' names hDir' hIn hTail
                rw [hDir] at hDir'
                cases hDir'
                refine List.mem_map.2 ⟨_, mem_listed.2 ⟨names, hIn, ?_, rfl⟩,
                  hAttach entries names hIn⟩
                cases tail with
                | some d => exact hTail d rfl
                | none =>
                    -- a deeper file would lie in a directory at the bound
                    by_contra hLong
                    apply hShallow
                    rw [Option.isNone_none, Bool.true_and]
                    refine List.any_eq_true.2
                      ⟨_, paths_front hIn (by decide) (Nat.lt_of_not_le hLong), ?_⟩
                    simp only [List.length_take, beq_self_eq_true,
                      Bool.true_and, beq_iff_eq]
                    have hMore := Nat.lt_of_not_le hLong
                    omega

theorem expand_exact
    (hNamed : ∀ entries ∈ readDir (req.anchorSegs fragment), WellNamed entries)
    (hGlob : (req.anchored fragment).isGlob = true)
    (hOk : req.expand readDir fragment = .ok block) :
    Expansion readDir req fragment block := by
  rcases expand_keys hNamed hGlob hOk with
    ⟨keys, selected, hDistinct, hSelect, rfl, hKeys, hAll⟩
  have hSegments : ∀ entries names, readDir (req.anchorSegs fragment) =
      some entries → (.File, names) ∈ paths entries →
      splitSegments (joined (req.anchorSegs fragment ++ names)) =
        req.anchorSegs fragment ++ names := by
    intro entries names hDir hIn
    apply splitSegments_joined
    intro s hMem
    exact (List.mem_append.1 hMem).elim (anchor_segments s)
      ((hNamed entries hDir).segments _ hIn s)
  have hSame : ∀ key ∈ keys, joined (splitSegments key) = key := by
    intro key hMem
    rcases hKeys key hMem with ⟨entries, names, hDir, hIn, rfl⟩
    rw [hSegments entries names hDir hIn]
  rcases select_ok hSelect with ⟨hPerm, hSorted⟩
  have hIdentity : (keys.filter fun c =>
      (selectedBothWays (req.anchored fragment) req.patterns c).1).map
        (fun c => joined (splitSegments c)) =
      keys.filter fun c =>
        (selectedBothWays (req.anchored fragment) req.patterns c).1 := by
    apply List.map_congr_left _ |>.trans (List.map_id _)
    exact fun key hMem => hSame key (List.mem_of_mem_filter hMem)
  rw [hIdentity] at hPerm
  have hSelected : ∀ key, key ∈ selected ↔ key ∈ keys ∧
      (req.anchored fragment).matches key = true ∧
        ∀ e ∈ req.patterns, e.matches key = false := by
    intro key
    rw [hPerm.mem_iff, List.mem_filter]
    simp [selectedBothWays]
  refine ⟨?_, ?_, ?_⟩
  · intro path
    rw [List.mem_map]
    constructor
    · rintro ⟨key, hMem, rfl⟩
      rcases (hSelected key).1 hMem with ⟨hKey, hMatch, hKept⟩
      rcases hKeys key hKey with ⟨entries, names, hDir, hIn, rfl⟩
      exact ⟨entries, names, hDir, hIn, rfl, hMatch, hKept⟩
    · rintro ⟨entries, names, hDir, hIn, rfl, hMatch, hKept⟩
      refine ⟨_, (hSelected _).2 ⟨hAll entries names hDir hIn ?_, hMatch, hKept⟩,
        rfl⟩
      intro d hDepth
      have hLength := anchored_length hDepth hMatch
      rw [hSegments entries names hDir hIn, List.length_append] at hLength
      omega
  · apply List.Nodup.map (List.cons_injective)
    exact hPerm.nodup_iff.2 (hDistinct.filter _)
  · apply hSorted.map
    intro a b hLe
    have hSlash : ∀ s, ordinalKey ('/' :: s) = 0x2F :: ordinalKey s :=
      fun _ => rfl
    rw [hSlash, hSlash]
    exact List.cons_le_cons _ hLe

/-
  Where an include is resolved at all, a fragment with a wildcard stands
  for the files below its anchor that it matches and no exclude does,
  each once and sorted; and nothing depends on the order in which
  directories list their entries.
-/
theorem glob_expansion_exact
    (req : GlobRequest)
    (hSame : SameSystem readDir readDir') :
    (resolve readDir req).toOption = (resolve readDir' req).toOption ∧
      ∀ out, resolve readDir req = .ok out →
        ∃ blocks, out = blocks.flatten ∧
          List.Forall₂ (fun fragment block =>
            (req.anchored fragment).isGlob = true →
              Expansion readDir req fragment block) req.fragments blocks := by
  unfold resolve
  constructor
  · rw [toOption_map, toOption_map,
      toOption_mapM_congr fun fragment _ => expand_same hSame]
  · intro out hOk
    cases hBlocks : req.fragments.mapM (req.expand readDir) with
    | error e =>
        rw [hBlocks] at hOk
        cases hOk
    | ok blocks =>
        rw [hBlocks] at hOk
        refine ⟨blocks, (Except.ok.inj hOk).symm, ?_⟩
        apply (forall₂_of_mapM hBlocks).imp
        exact fun fragment block hExpand hGlob =>
          expand_exact (hSame.named _) hGlob hExpand

/- The directory `/p` with two files, in the order they are given. -/
def twoFiles
    (first second : Char) :
    ReadDir :=
  fun segs => if segs = [['p']] then some [.File [first], .File [second]] else none

/- `*` in the directory `/p`. -/
def everyFile :
    GlobRequest :=
  ⟨['/', 'p'], ['*'], []⟩

theorem glob_expansion_exact_two_files :
    (resolve (twoFiles 'b' 'a') everyFile).toOption =
        (resolve (twoFiles 'a' 'b') everyFile).toOption ∧
      ∀ out, resolve (twoFiles 'b' 'a') everyFile = .ok out →
        ∃ blocks, out = blocks.flatten ∧
          List.Forall₂ (fun fragment block =>
            (everyFile.anchored fragment).isGlob = true →
              Expansion (twoFiles 'b' 'a') everyFile fragment block)
            everyFile.fragments blocks := by
  have hNamed : WellNamed [.File ['b'], .File ['a']] := by
    constructor <;> simp [paths, isSegment]
  have hNamed' : WellNamed [.File ['a'], .File ['b']] := by
    constructor <;> simp [paths, isSegment]
  have hTree : SameTree [.File ['b'], .File ['a']] [.File ['a'], .File ['b']] := by
    intro p
    simp [paths, or_comm]
  refine glob_expansion_exact _ ⟨?_, ?_, ?_⟩
  · intro segs entries hMem
    unfold twoFiles at hMem
    split at hMem
    · cases hMem
      exact hNamed
    · cases hMem
  · intro segs entries hMem
    unfold twoFiles at hMem
    split at hMem
    · cases hMem
      exact hNamed'
    · cases hMem
  · intro segs
    unfold twoFiles
    split
    · exact .some hTree
    · exact .none

end Expanding

end MSBuild

end Borzoi
