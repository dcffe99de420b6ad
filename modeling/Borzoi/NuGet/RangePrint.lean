import Borzoi.NuGet.Range
import Borzoi.NuGet.VersionPrint
import Mathlib.Data.List.TakeWhile

/-
  Printed ranges.

  A range is printed as an interval.  A floating bound prints its
  pattern, whose base is at most the base of the text it was read from,
  so the bounds of the printed range are still in order.

  Main declarations:
    * `VersionRange.toNormalizedString`
    * `VersionRange.eq`
    * `FloatForm`
    * `parseMinBound_floats`
    * `VersionRange.Accepted`
    * `range_print_round_trip`
-/

namespace Borzoi

namespace NuGet

open Text

namespace VersionRange

/- `to_normalized_string`. -/
def toNormalizedString
    (range : VersionRange) :
    List Char :=
  let minText :=
    match range.float, range.min with
    | some float, _ => float.pattern
    | none, some v => v.toNormalizedString
    | none, none => []
  let opening := if range.minInclusive then '[' else '('
  let closing := if range.maxInclusive then ']' else ')'
  let maxText :=
    match range.max with
    | some v => v.toNormalizedString
    | none => []
  opening :: minText ++ [',', ' '] ++ maxText ++ [closing]

/- Equality of optional bounds. -/
def boundEq
    (a b : Option NuGetVersion) :
    Bool :=
  match a, b with
  | some v, some w => v.eq w
  | none, none => true
  | _, _ => false

/- The derived `PartialEq`. -/
def eq
    (a b : VersionRange) :
    Bool :=
  boundEq a.min b.min && boundEq a.max b.max &&
    a.minInclusive == b.minInclusive && a.maxInclusive == b.maxInclusive &&
    a.float == b.float

end VersionRange

def trimStart
    (s : List Char) :
    List Char :=
  s.dropWhile isWhitespace

def trimEnd
    (s : List Char) :
    List Char :=
  (s.reverse.dropWhile isWhitespace).reverse

theorem trim_eq
    (s : List Char) :
    trim s = trimEnd (trimStart s) :=
  rfl

variable {c : Char} {behavior : FloatBehavior} {labels : List (List Char)}
variable {base release s stem text version : List Char} {ns : List Nat}
variable {v : NuGetVersion} {float : Option FloatSpec}

theorem trimStart_append_cons
    (hSolid : isWhitespace c = false)
    (a r : List Char) :
    trimStart (a ++ c :: r) = trimStart a ++ c :: r := by
  unfold trimStart
  induction a with
  | nil => simp [hSolid]
  | cons b a ih =>
      by_cases hBlank : isWhitespace b = true
      · simp [hBlank, ih]
      · simp [hBlank]

theorem trimEnd_append_cons
    (hSolid : isWhitespace c = false)
    (a r : List Char) :
    trimEnd (a ++ c :: r) = a ++ c :: trimEnd r := by
  have hReverse := trimStart_append_cons hSolid r.reverse a.reverse
  unfold trimEnd
  unfold trimStart at hReverse
  simp [hReverse]

/- Trimming stops at the first and the last solid character. -/
theorem trim_append_cons
    (hSolid : isWhitespace c = false)
    (a r : List Char) :
    trim (a ++ c :: r) = trimStart a ++ c :: trimEnd r := by
  rw [trim_eq, trimStart_append_cons hSolid, trimEnd_append_cons hSolid]

theorem mem_trimEnd_or
    (hMem : c ∈ s) :
    c ∈ trimEnd s ∨ isWhitespace c = true := by
  rw [← List.mem_reverse,
    ← List.takeWhile_append_dropWhile (p := isWhitespace) (l := s.reverse),
    List.mem_append] at hMem
  rcases hMem with hBlank | hKept
  · exact Or.inr (List.mem_takeWhile_imp hBlank)
  · exact Or.inl (List.mem_reverse.2 hKept)

theorem mem_of_mem_trimStart
    (hMem : c ∈ trimStart s) :
    c ∈ s :=
  (List.dropWhile_sublist _).mem hMem

theorem mem_of_mem_trimEnd
    (hMem : c ∈ trimEnd s) :
    c ∈ s := by
  have hReversed := mem_of_mem_trimStart (List.mem_reverse.1 hMem)
  exact List.mem_reverse.1 hReversed

theorem ofSections_ok
    {parts : List Char × Option (List Char) × Option (List Char)}
    (hParse : ofSections parts = .ok v) :
    labelsOf parts.2.1 = .ok v.releaseLabels ∧
      metadataOf parts.2.2 = .ok v.metadata := by
  unfold ofSections at hParse
  split at hParse
  · cases hParse
  split at hParse
  · cases hParse
  split at hParse
  · cases hParse
  split at hParse
  · cases hParse
  next labels hLabels =>
  split at hParse
  · cases hParse
  next metadata hMetadata =>
  cases hParse
  exact ⟨hLabels, hMetadata⟩

/- A version text with a release section and no metadata. -/
theorem parse_release
    (hBase : ∀ c ∈ base, c ≠ '-' ∧ c ≠ '+')
    (hRelease : '+' ∉ release) :
    NuGetVersion.parse (base ++ '-' :: release) =
      ofSections (trimStart base, some (trimEnd release), none) := by
  have hSolid : isWhitespace '-' = false := by decide
  have hSections := @sections_text (trimStart base) (some (trimEnd release))
    none (fun c hMem => hBase c (mem_of_mem_trimStart hMem))
    (fun r hSome hPlus => by
      cases hSome
      exact hRelease (mem_of_mem_trimEnd hPlus))
  simp only [sectionText, List.append_nil] at hSections
  rw [parse_eq, trim_append_cons hSolid, hSections, if_neg (by simp)]

/- A version text without either sign is its numbers. -/
theorem parse_plain_labels
    (hText : ∀ c ∈ text, c ≠ '-' ∧ c ≠ '+')
    (hParse : NuGetVersion.parse text = .ok v) :
    v.releaseLabels = [] := by
  have hTrim : ∀ c ∈ trim text, c ≠ '-' ∧ c ≠ '+' := by
    intro c hMem
    exact hText c (mem_of_mem_trimStart (mem_of_mem_trimEnd hMem))
  have hSections := @sections_text (trim text) none none hTrim
    (fun r hSome => by cases hSome)
  simp only [sectionText, List.append_nil] at hSections
  rw [parse_eq, hSections] at hParse
  split at hParse
  · cases hParse
  · have hLabels := (ofSections_ok hParse).1
    exact (Except.ok.inj hLabels).symm

theorem labelsOf_chars
    (hLabels : labelsOf (some text) = .ok labels) :
    ∀ c ∈ text, c = '.' ∨ isPartByte c = true := by
  unfold labelsOf at hLabels
  rcases (mapM_checked_iff (fun _ _ => releaseLabel_eq) _ _).1 hLabels with
    ⟨-, hAll⟩
  intro c hMem
  have hJoin : ['.'].intercalate (text.splitOn '.') = text :=
    List.intercalate_splitOn '.'
  rw [← hJoin] at hMem
  rcases mem_intercalate hMem with hDot | ⟨label, hLabel, hIn⟩
  · exact Or.inl (List.mem_singleton.1 hDot)
  · exact Or.inr ((releaseLabel_ok (hAll label hLabel)).2 c hIn)

theorem then_ne_gt
    {a b : Ordering}
    (hFirst : a ≠ .gt)
    (hSecond : b ≠ .gt) :
    a.then b ≠ .gt := by
  cases a with
  | lt => simp
  | eq => exact hSecond
  | gt => exact absurd rfl hFirst

theorem compare_ne_gt
    {m n : Nat}
    (hLe : m ≤ n) :
    compare m n ≠ .gt := by
  rw [Ne, Nat.compare_eq_gt]
  exact Nat.not_lt_of_le hLe

/- A smaller base with the same labels is no greater version. -/
theorem cmp_ne_gt_of_le
    {v w : NuGetVersion}
    (hMajor : v.major ≤ w.major)
    (hMinor : v.minor ≤ w.minor)
    (hPatch : v.patch ≤ w.patch)
    (hRevision : v.revision ≤ w.revision)
    (hLabels : v.releaseLabels = w.releaseLabels) :
    v.cmp w ≠ .gt := by
  have hReleases : v.compareReleases w = .eq := by
    have hKeys : releaseKeys v = releaseKeys w := by
      unfold releaseKeys
      rw [hLabels]
    rw [compareReleases_eq, hKeys]
    exact Std.ReflCmp.compare_self
  unfold NuGetVersion.cmp NuGetVersion.compareNums
  rw [hReleases]
  apply then_ne_gt
  · apply then_ne_gt (compare_ne_gt hMajor)
    apply then_ne_gt (compare_ne_gt hMinor)
    exact then_ne_gt (compare_ne_gt hPatch) (compare_ne_gt hRevision)
  · decide

------------------------------------------------------------
-- Floating Bounds
------------------------------------------------------------

/- Numbers with a star behind them. -/
def floatText
    (ns : List Nat) :
    List Char :=
  match ns with
  | [] => ['*']
  | _ => numsText ns ++ ['.', '*']

theorem numsText_one
    (a : Nat) :
    numsText [a] = Nat.toDigits 10 a := by
  simp [numsText, List.intercalate]

theorem numsText_cons_cons
    (a b : Nat)
    (rest : List Nat) :
    numsText (a :: b :: rest) =
      Nat.toDigits 10 a ++ '.' :: numsText (b :: rest) := by
  simp [numsText, List.intercalate_cons_cons]

theorem numsText_concat
    (hSome : ns ≠ [])
    (n : Nat) :
    numsText (ns ++ [n]) = numsText ns ++ '.' :: Nat.toDigits 10 n := by
  induction ns with
  | nil => exact absurd rfl hSome
  | cons a rest ih =>
      cases rest with
      | nil => simp [numsText_one, numsText_cons_cons]
      | cons b rest =>
          rw [List.cons_append, List.cons_append, numsText_cons_cons,
            numsText_cons_cons, ← List.cons_append, ih (by simp)]
          simp

theorem count_toDigits
    (n : Nat) :
    (Nat.toDigits 10 n).count '.' = 0 :=
  List.count_eq_zero.2 (not_mem_toDigits rfl)

theorem count_numsText
    (a : Nat)
    (rest : List Nat) :
    (numsText (a :: rest)).count '.' = rest.length := by
  induction rest generalizing a with
  | nil => rw [numsText_one, count_toDigits, List.length_nil]
  | cons b rest ih =>
      rw [numsText_cons_cons, List.count_append, count_toDigits,
        List.count_cons_self, ih, List.length_cons, Nat.zero_add]

theorem floatText_count
    (ns : List Nat) :
    (floatText ns).count '.' = ns.length := by
  cases ns with
  | nil => rfl
  | cons a rest =>
      unfold floatText
      dsimp only
      rw [List.count_append, count_numsText, List.length_cons]
      rfl

/- The same numbers with a zero behind them. -/
theorem floatText_base
    (ns : List Nat) :
    (floatText ns).dropLast ++ ['0'] = numsText (ns ++ [0]) := by
  cases ns with
  | nil => simp [floatText, numsText, List.intercalate]
  | cons a rest =>
      rw [numsText_concat (by simp)]
      simp [floatText, List.dropLast_append_of_ne_nil]

theorem floatText_last
    (ns : List Nat) :
    (floatText ns).getLast? = some '*' := by
  cases ns with
  | nil => rfl
  | cons a rest => simp [floatText]

theorem star_mem_floatText
    (ns : List Nat) :
    '*' ∈ floatText ns :=
  List.mem_of_getLast? (floatText_last ns)

theorem mem_floatText
    (hMem : c ∈ floatText ns) :
    c = '.' ∨ c = '*' ∨ isAsciiDigit c = true := by
  cases ns with
  | nil =>
      have hStar : c = '*' := by simpa [floatText] using hMem
      exact Or.inr (Or.inl hStar)
  | cons a rest =>
      unfold floatText at hMem
      rw [List.mem_append] at hMem
      rcases hMem with hNums | hTail
      · rcases mem_numsText hNums with hDot | hDigit
        · exact Or.inl hDot
        · exact Or.inr (Or.inr hDigit)
      · simp only [List.mem_cons, List.not_mem_nil, or_false] at hTail
        rcases hTail with hDot | hStar
        · exact Or.inl hDot
        · exact Or.inr (Or.inl hStar)

/- The numbers a starred pattern keeps. -/
def floatNums
    (behavior : FloatBehavior)
    (v : NuGetVersion) :
    List Nat :=
  match behavior with
  | .Major | .PrereleaseMajor | .AbsoluteLatest => []
  | .Minor | .PrereleaseMinor => [v.major]
  | .Patch | .PrereleasePatch => [v.major, v.minor]
  | .Revision | .PrereleaseRevision => [v.major, v.minor, v.patch]
  | .Prerelease => v.nums

/- The behavior of a pattern with a release part. -/
def releaseBehavior
    (dots : Nat) :
    FloatBehavior :=
  match dots with
  | 0 => .PrereleaseMajor
  | 1 => .PrereleaseMinor
  | 2 => .PrereleasePatch
  | _ => .PrereleaseRevision

theorem releaseBase_floatText
    {ns : List Nat}
    (hCount : ns.length ≤ 3) :
    releaseBase (floatText ns) =
      .ok (numsText (ns ++ [0]), releaseBehavior ns.length) := by
  unfold releaseBase
  rw [if_pos (star_mem_floatText ns), if_neg (by simp [floatText_last]),
    floatText_base, floatText_count]
  rcases ns with _ | ⟨a, _ | ⟨b, _ | ⟨c, _ | ⟨d, rest⟩⟩⟩⟩
  · rfl
  · rfl
  · rfl
  · rfl
  · simp only [List.length_cons] at hCount
    omega

theorem releaseBase_numsText
    (ns : List Nat) :
    releaseBase (numsText ns) = .ok (numsText ns, .Prerelease) := by
  unfold releaseBase
  rw [if_neg]
  intro hStar
  rcases mem_numsText hStar with hDot | hDigit
  · cases hDot
  · revert hDigit
    decide

/- The release part of a base, given the text in front of the star. -/
def releaseMinOf
    (stem : List Char) :
    List Char :=
  if stem = [] then
    ['0']
  else if stem.getLast? = some '.' then
    stem ++ ['0']
  else
    stem

theorem parseReleaseFloat_ok_iff
    {float : Option FloatSpec} :
    parseReleaseFloat version release = .ok (v, float) ↔
      ∃ base behavior, releaseBase version = .ok (base, behavior) ∧
        NuGetVersion.parse (base ++ '-' :: releaseMinOf release.dropLast) =
          .ok v ∧
        float = some ⟨behavior,
          floatPattern behavior v (some release.dropLast)⟩ := by
  unfold parseReleaseFloat
  simp only [bind, Except.bind]
  cases hBase : releaseBase version with
  | error e => simp
  | ok result =>
      rcases result with ⟨base, behavior⟩
      have hMin : (if release.dropLast = [] then ['0']
          else if release.dropLast.getLast? = some '.' then
            release.dropLast ++ ['0']
          else release.dropLast) = releaseMinOf release.dropLast := rfl
      dsimp only
      rw [hMin]
      unfold parseVersionBound
      cases hParse : NuGetVersion.parse
          (base ++ '-' :: releaseMinOf release.dropLast) with
      | error e => simp [Except.mapError, hParse]
      | ok min =>
          simp only [Except.mapError, Except.ok.injEq, Prod.mk.injEq]
          constructor
          · rintro ⟨rfl, rfl⟩
            exact ⟨base, behavior, ⟨rfl, rfl⟩, hParse, rfl⟩
          · rintro ⟨base', behavior', ⟨rfl, rfl⟩, hOk, rfl⟩
            rw [hParse] at hOk
            cases hOk
            exact ⟨rfl, rfl⟩

/- A pattern with a dash is split there. -/
theorem parseFloat_release
    (hPlus : '+' ∉ version ++ '-' :: release)
    (hDash : '-' ∉ version)
    (hLatest : version ++ '-' :: release ≠ ['*', '-', '*']) :
    parseFloat (version ++ '-' :: release) =
      parseReleaseFloat version release := by
  have hStar : version ++ '-' :: release ≠ ['*'] := by
    intro hEq
    have hMem : '-' ∈ version ++ '-' :: release := by simp
    rw [hEq] at hMem
    revert hMem
    decide
  have hTake : (version ++ '-' :: release).takeWhile (· != '-') =
      version := by
    rw [List.takeWhile_append_of_pos]
    · simp
    · intro c hMem
      rw [bne_iff_ne]
      rintro rfl
      exact hDash hMem
  unfold parseFloat
  rw [if_neg hStar, if_neg hLatest, if_neg hPlus]
  simp only [hTake, List.drop_left]

/- A pattern without a dash is numeric. -/
theorem parseFloat_numeric
    (hPlus : '+' ∉ text)
    (hDash : '-' ∉ text)
    (hStar : text ≠ ['*']) :
    parseFloat text = parseNumericFloat text := by
  have hLatest : text ≠ ['*', '-', '*'] := by
    rintro rfl
    exact hDash (by decide)
  have hTake : text.takeWhile (· != '-') = text := by
    rw [List.takeWhile_eq_self_iff]
    intro c hMem
    rw [bne_iff_ne]
    rintro rfl
    exact hDash hMem
  unfold parseFloat
  rw [if_neg hStar, if_neg hLatest, if_neg hPlus]
  simp only [hTake, List.drop_length]

/- A floating bound whose pattern is read as a bound no greater. -/
structure FloatForm
    (v : NuGetVersion)
    (float : FloatSpec) :
    Prop where
  star : float.pattern.getLast? = some '*'
  comma : ',' ∉ float.pattern
  reads : ∃ v' float',
    parseMinBound float.pattern = .ok (v', some float') ∧
      float'.pattern = float.pattern ∧ v'.cmp v ≠ .gt

theorem parseMinBound_star
    (hStar : text.getLast? = some '*') :
    parseMinBound text = parseFloat text := by
  unfold parseMinBound
  exact if_pos hStar

/- A numeric pattern in terms of its base. -/
theorem parseNumericFloat_eq
    (text : List Char) :
    parseNumericFloat text =
      match NuGetVersion.parse (text.dropLast ++ ['0']) with
      | .error e => .error (.BadVersion e)
      | .ok v =>
          match text.count '.' with
          | 0 => .ok (v, none)
          | 1 => .ok (v, some ⟨.Minor, floatText [v.major]⟩)
          | 2 => .ok (v, some ⟨.Patch, floatText [v.major, v.minor]⟩)
          | 3 => .ok (v, some ⟨.Revision,
              floatText [v.major, v.minor, v.patch]⟩)
          | _ => .error .BadFloat := by
  unfold parseNumericFloat parseVersionBound
  cases NuGetVersion.parse (text.dropLast ++ ['0']) with
  | error e => rfl
  | ok v =>
      simp only [bind, Except.bind, Except.mapError]
      generalize text.count '.' = dots
      rcases dots with _ | _ | _ | _ | dots <;>
        simp [floatPattern, floatText, numsText_one, numsText_cons_cons]

theorem floatNums_small
    (hWell : v.WellFormed)
    (behavior : FloatBehavior) :
    ∀ n ∈ floatNums behavior v, n ≤ 2 ^ 31 - 1 := by
  have hMajor := hWell.major
  have hMinor := hWell.minor
  have hPatch := hWell.patch
  intro n hMem
  cases behavior with
  | Prerelease => exact nums_small hWell n hMem
  | Major | PrereleaseMajor | AbsoluteLatest => cases hMem
  | Minor | PrereleaseMinor | Patch | PrereleasePatch | Revision
    | PrereleaseRevision =>
      simp only [floatNums, List.mem_cons, List.not_mem_nil,
        or_false] at hMem
      omega

/- The pattern of a numeric float is read as its own base. -/
theorem parseNumericFloat_floatText
    (hSome : ns ≠ [])
    (hCount : ns.length ≤ 3)
    (hSmall : ∀ n ∈ ns, n ≤ 2 ^ 31 - 1) :
    ∃ behavior, parseNumericFloat (floatText ns) =
      .ok (⟨ns.getD 0 0, ns.getD 1 0, ns.getD 2 0, 0, [], none⟩,
        some ⟨behavior, floatText ns⟩) := by
  have hBase : NuGetVersion.parse (numsText (ns ++ [0])) =
      .ok ⟨(ns ++ [0]).getD 0 0, (ns ++ [0]).getD 1 0,
        (ns ++ [0]).getD 2 0, (ns ++ [0]).getD 3 0, [], none⟩ := by
    have hPrinted := @parse_printed (ns ++ [0]) [] none (by simp)
      (by
        rw [List.length_append]
        exact Nat.succ_le_succ hCount) (by
        intro n hMem
        rcases List.mem_append.1 hMem with hIn | hZero
        · exact hSmall n hIn
        · rw [List.mem_singleton.1 hZero]
          decide) (by simp) (by simp)
    simpa [releaseSection, sectionText] using hPrinted
  rw [parseNumericFloat_eq, floatText_base, hBase, floatText_count]
  rcases ns with _ | ⟨a, _ | ⟨b, _ | ⟨c, _ | ⟨d, rest⟩⟩⟩⟩
  · exact absurd rfl hSome
  · exact ⟨.Minor, rfl⟩
  · exact ⟨.Patch, rfl⟩
  · exact ⟨.Revision, rfl⟩
  · simp only [List.length_cons] at hCount
    omega

/- The pattern of a numeric float, as a bound. -/
theorem floatForm_numeric
    (hSome : ns ≠ [])
    (hCount : ns.length ≤ 3)
    (hSmall : ∀ n ∈ ns, n ≤ 2 ^ 31 - 1)
    (hMajor : ns.getD 0 0 ≤ v.major)
    (hMinor : ns.getD 1 0 ≤ v.minor)
    (hPatch : ns.getD 2 0 ≤ v.patch)
    (hLabels : v.releaseLabels = []) :
    FloatForm v ⟨behavior, floatText ns⟩ := by
  have hPlain : ∀ c, isAsciiDigit c = true → c ≠ '-' ∧ c ≠ '+' ∧ c ≠ ',' := by
    intro c hDigit
    refine ⟨?_, ?_, ?_⟩ <;>
      (rintro rfl
       revert hDigit
       decide)
  have hChars : ∀ c ∈ floatText ns, c ≠ '-' ∧ c ≠ '+' ∧ c ≠ ',' := by
    intro c hMem
    rcases mem_floatText hMem with rfl | rfl | hDigit
    · decide
    · decide
    · exact hPlain c hDigit
  have hStar : floatText ns ≠ ['*'] := by
    cases ns with
    | nil => exact absurd rfl hSome
    | cons a rest =>
        intro hEq
        have hDots := floatText_count (a :: rest)
        rw [hEq] at hDots
        cases hDots
  rcases parseNumericFloat_floatText hSome hCount hSmall with
    ⟨behavior', hParse⟩
  have hRead : parseMinBound (floatText ns) =
      .ok (⟨ns.getD 0 0, ns.getD 1 0, ns.getD 2 0, 0, [], none⟩,
        some ⟨behavior', floatText ns⟩) := by
    rw [parseMinBound_star (floatText_last ns), parseFloat_numeric
      (fun hPlus => (hChars _ hPlus).2.1 rfl)
      (fun hDash => (hChars _ hDash).1 rfl) hStar]
    exact hParse
  refine ⟨floatText_last ns, fun hComma => (hChars _ hComma).2.2 rfl,
    _, _, hRead, rfl, ?_⟩
  exact cmp_ne_gt_of_le hMajor hMinor hPatch (Nat.zero_le _) hLabels.symm

/- What stands in front of the dash of a pattern. -/
def releaseNumeric
    (behavior : FloatBehavior)
    (v : NuGetVersion) :
    List Char :=
  match behavior with
  | .Prerelease => numsText v.nums
  | _ => floatText (floatNums behavior v)

theorem floatPattern_release
    (hBehavior : behavior = .Prerelease ∨
      ∃ dots, behavior = releaseBehavior dots)
    (v : NuGetVersion)
    (stem : List Char) :
    floatPattern behavior v (some stem) =
      releaseNumeric behavior v ++ '-' :: stem ++ ['*'] := by
  rcases hBehavior with rfl | ⟨dots, rfl⟩
  · by_cases hRevision : v.revision = 0
    · simp [floatPattern, releaseNumeric, NuGetVersion.nums, hRevision,
        numsText_one, numsText_cons_cons]
    · simp [floatPattern, releaseNumeric, NuGetVersion.nums, hRevision,
        numsText_one, numsText_cons_cons]
  · rcases dots with _ | _ | _ | dots <;>
      simp [releaseBehavior, floatPattern, releaseNumeric, floatNums,
        floatText, numsText_one, numsText_cons_cons]

/- A base with the numbers of a pattern, and the labels of a stem. -/
theorem parse_base_release
    (hSome : ns ≠ [])
    (hCount : ns.length ≤ 4)
    (hSmall : ∀ n ∈ ns, n ≤ 2 ^ 31 - 1)
    (hPlus : '+' ∉ stem)
    (hLabels : labelsOf (some (trimEnd (releaseMinOf stem))) = .ok labels) :
    NuGetVersion.parse (numsText ns ++ '-' :: releaseMinOf stem) =
      .ok ⟨ns.getD 0 0, ns.getD 1 0, ns.getD 2 0, ns.getD 3 0, labels,
        none⟩ := by
  have hChars : ∀ c ∈ numsText ns,
      (c ≠ '-' ∧ c ≠ '+') ∧ isWhitespace c = false := by
    intro c hMem
    rcases mem_numsText hMem with rfl | hDigit
    · decide
    · have hPart : isPartByte c = true := by simp [isPartByte, hDigit]
      have hSolid := isPartByte_not_whitespace hPart
      refine ⟨⟨?_, hSolid.2.2⟩, hSolid.1⟩
      rintro rfl
      revert hDigit
      decide
  have hStart : trimStart (numsText ns) = numsText ns := by
    unfold trimStart
    cases hNums : numsText ns with
    | nil => rfl
    | cons c rest =>
        have hSolid := (hChars c (by simp [hNums])).2
        simp [hSolid]
  have hRelease : '+' ∉ releaseMinOf stem := by
    unfold releaseMinOf
    split
    · decide
    split
    · simp [hPlus]
    · exact hPlus
  rw [parse_release (fun c hMem => (hChars c hMem).1) hRelease, hStart]
  exact ofSections_numsText hSome hCount hSmall hLabels rfl

theorem releaseBase_ok
    (hBase : releaseBase version = .ok (base, behavior)) :
    (behavior = .Prerelease ∨ ∃ dots, behavior = releaseBehavior dots) ∧
      ∀ c ∈ base, c ∈ version ∨ c = '0' := by
  have hChars : ∀ c ∈ version.dropLast ++ ['0'], c ∈ version ∨ c = '0' := by
    intro c hMem
    rcases List.mem_append.1 hMem with hIn | hZero
    · exact Or.inl ((List.dropLast_sublist _).mem hIn)
    · exact Or.inr (List.mem_singleton.1 hZero)
  unfold releaseBase at hBase
  split at hBase
  · split at hBase
    · cases hBase
    · dsimp only at hBase
      split at hBase
      · cases hBase
        exact ⟨Or.inr ⟨0, rfl⟩, hChars⟩
      · cases hBase
        exact ⟨Or.inr ⟨1, rfl⟩, hChars⟩
      · cases hBase
        exact ⟨Or.inr ⟨2, rfl⟩, hChars⟩
      · cases hBase
        exact ⟨Or.inr ⟨3, rfl⟩, hChars⟩
      · cases hBase
  · cases hBase
    exact ⟨Or.inl rfl, fun c hMem => Or.inl hMem⟩

/- The base a pattern with a release part is read as. -/
def patternNums
    (behavior : FloatBehavior)
    (v : NuGetVersion) :
    List Nat :=
  match behavior with
  | .Prerelease => v.nums
  | _ => floatNums behavior v ++ [0]

theorem releaseBase_releaseNumeric
    (hBehavior : behavior = .Prerelease ∨
      ∃ dots, behavior = releaseBehavior dots)
    (v : NuGetVersion) :
    releaseBase (releaseNumeric behavior v) =
      .ok (numsText (patternNums behavior v), behavior) := by
  rcases hBehavior with rfl | ⟨dots, rfl⟩
  · exact releaseBase_numsText _
  · rcases dots with _ | _ | _ | dots
    · exact @releaseBase_floatText [] (by decide)
    · exact @releaseBase_floatText [v.major] (by simp)
    · exact @releaseBase_floatText [v.major, v.minor] (by simp)
    · exact @releaseBase_floatText [v.major, v.minor, v.patch] (by simp)

/- The pattern's base keeps the pattern, and is no greater. -/
theorem patternNums_getD
    (hBehavior : behavior = .Prerelease ∨
      ∃ dots, behavior = releaseBehavior dots)
    (v w : NuGetVersion)
    (hMajor : w.major = (patternNums behavior v).getD 0 0)
    (hMinor : w.minor = (patternNums behavior v).getD 1 0)
    (hPatch : w.patch = (patternNums behavior v).getD 2 0)
    (hRevision : w.revision = (patternNums behavior v).getD 3 0) :
    (releaseNumeric behavior w = releaseNumeric behavior v ∧
      w.major ≤ v.major ∧ w.minor ≤ v.minor ∧ w.patch ≤ v.patch ∧
      w.revision ≤ v.revision) ∧
    (patternNums behavior v ≠ [] ∧ (patternNums behavior v).length ≤ 4) := by
  rcases hBehavior with rfl | ⟨dots, rfl⟩
  · by_cases hZero : v.revision = 0
    · simp [patternNums, NuGetVersion.nums, hZero]
        at hMajor hMinor hPatch hRevision
      simp [patternNums, releaseNumeric, NuGetVersion.nums, hMajor, hMinor,
        hPatch, hRevision, hZero]
    · simp [patternNums, NuGetVersion.nums, hZero]
        at hMajor hMinor hPatch hRevision
      simp [patternNums, releaseNumeric, NuGetVersion.nums, hMajor, hMinor,
        hPatch, hRevision, hZero]
  · rcases dots with _ | _ | _ | dots <;>
      (simp [patternNums, releaseBehavior, floatNums]
         at hMajor hMinor hPatch hRevision
       simp [patternNums, releaseBehavior, releaseNumeric, floatNums, hMajor,
         hMinor, hPatch, hRevision])

theorem mem_releaseNumeric
    (hMem : c ∈ releaseNumeric behavior v) :
    c ≠ '-' ∧ c ≠ '+' ∧ c ≠ ',' := by
  have hDigits : ∀ d, isAsciiDigit d = true →
      d ≠ '-' ∧ d ≠ '+' ∧ d ≠ ',' := by
    intro d hDigit
    refine ⟨?_, ?_, ?_⟩ <;>
      (rintro rfl
       revert hDigit
       decide)
  have hFloat : ∀ ns, c ∈ floatText ns → c ≠ '-' ∧ c ≠ '+' ∧ c ≠ ',' := by
    intro ns hIn
    rcases mem_floatText hIn with rfl | rfl | hDigit
    · decide
    · decide
    · exact hDigits c hDigit
  cases behavior with
  | Prerelease =>
      rcases mem_numsText hMem with rfl | hDigit
      · decide
      · exact hDigits c hDigit
  | _ =>
      dsimp only [releaseNumeric] at hMem
      exact hFloat _ hMem

theorem patternNums_small
    (hWell : v.WellFormed) :
    ∀ n ∈ patternNums behavior v, n ≤ 2 ^ 31 - 1 := by
  have hFloat : ∀ n ∈ floatNums behavior v ++ [0], n ≤ 2 ^ 31 - 1 := by
    intro n hMem
    rcases List.mem_append.1 hMem with hIn | hZero
    · exact floatNums_small hWell behavior n hIn
    · rw [List.mem_singleton.1 hZero]
      exact Nat.zero_le _
  cases behavior with
  | Prerelease => exact nums_small hWell
  | _ => exact hFloat

/- A pattern with a release part, as a bound. -/
theorem floatForm_release
    (hDash : '-' ∉ version)
    (hPlus : '+' ∉ version)
    (hStem : '+' ∉ stem)
    (hParse : parseReleaseFloat version (stem ++ ['*']) = .ok (v, float)) :
    v.WellFormed ∧ ∃ f, float = some f ∧ FloatForm v f := by
  rcases parseReleaseFloat_ok_iff.1 hParse with
    ⟨base, behavior, hBase, hVersion, rfl⟩
  rw [List.dropLast_concat] at hVersion ⊢
  rcases releaseBase_ok hBase with ⟨hBehavior, hChars⟩
  have hWell := parse_wellFormed hVersion
  have hBaseChars : ∀ c ∈ base, c ≠ '-' ∧ c ≠ '+' := by
    intro c hMem
    rcases hChars c hMem with hIn | rfl
    · constructor
      · rintro rfl
        exact hDash hIn
      · rintro rfl
        exact hPlus hIn
    · decide
  have hRelease : '+' ∉ releaseMinOf stem := by
    unfold releaseMinOf
    split
    · decide
    split
    · simp [hStem]
    · exact hStem
  have hLabels : labelsOf (some (trimEnd (releaseMinOf stem))) =
      .ok v.releaseLabels := by
    rw [parse_release hBaseChars hRelease] at hVersion
    exact (ofSections_ok hVersion).1
  have hComma : ',' ∉ stem := by
    intro hMem
    have hIn : ',' ∈ releaseMinOf stem := by
      unfold releaseMinOf
      split
      · next hNil =>
          rw [hNil] at hMem
          cases hMem
      split
      · simp [hMem]
      · exact hMem
    rcases mem_trimEnd_or hIn with hKept | hBlank
    · rcases labelsOf_chars hLabels _ hKept with hDot | hPart
      · cases hDot
      · revert hPart
        decide
    · revert hBlank
      decide
  have hPattern := floatPattern_release hBehavior v stem
  refine ⟨hWell, _, rfl, ?_, ?_, ?_⟩
  · rw [hPattern]
    exact List.getLast?_concat
  · rw [hPattern]
    intro hMem
    simp only [List.append_assoc, List.cons_append, List.mem_append,
      List.mem_cons] at hMem
    rcases hMem with hIn | hDashComma | hIn | hStar
    · exact (mem_releaseNumeric hIn).2.2 rfl
    · cases hDashComma
    · exact hComma hIn
    · revert hStar
      decide
  rw [hPattern]
  by_cases hLatest :
      releaseNumeric behavior v ++ '-' :: stem ++ ['*'] = ['*', '-', '*']
  · -- the pattern is the text of the latest version of all
    have hNil : stem = [] := by
      have hLength := congrArg List.length hLatest
      have hNumeric : releaseNumeric behavior v ≠ [] := by
        intro hEmpty
        rw [hEmpty] at hLatest
        cases hLatest
      have hPos := List.length_pos_iff.2 hNumeric
      simp only [List.length_append, List.length_cons,
        List.length_nil] at hLength
      apply List.length_eq_zero_iff.1
      omega
    rw [hLatest]
    refine ⟨⟨0, 0, 0, 0, [['0']], none⟩,
      ⟨.AbsoluteLatest, ['*', '-', '*']⟩, rfl, rfl, ?_⟩
    rw [hNil] at hLabels
    exact cmp_ne_gt_of_le (Nat.zero_le _) (Nat.zero_le _) (Nat.zero_le _)
      (Nat.zero_le _) (Except.ok.inj hLabels)
  have hSplit : releaseNumeric behavior v ++ '-' :: stem ++ ['*'] =
      releaseNumeric behavior v ++ '-' :: (stem ++ ['*']) := by simp
  have hNums : ∀ n ∈ patternNums behavior v, n ≤ 2 ^ 31 - 1 :=
    patternNums_small hWell
  let w : NuGetVersion := ⟨(patternNums behavior v).getD 0 0,
    (patternNums behavior v).getD 1 0, (patternNums behavior v).getD 2 0,
    (patternNums behavior v).getD 3 0, v.releaseLabels, none⟩
  rcases patternNums_getD hBehavior v w rfl rfl rfl rfl with
    ⟨⟨hNumeric, hMajor, hMinor, hPatch, hRevision⟩, hSome, hCount⟩
  have hBound : NuGetVersion.parse
      (numsText (patternNums behavior v) ++ '-' :: releaseMinOf stem) =
      .ok w :=
    parse_base_release hSome hCount hNums hStem hLabels
  have hAgain : parseReleaseFloat (releaseNumeric behavior v)
      (stem ++ ['*']) =
      .ok (w, some ⟨behavior, floatPattern behavior w (some stem)⟩) := by
    apply parseReleaseFloat_ok_iff.2
    rw [List.dropLast_concat]
    exact ⟨_, _, releaseBase_releaseNumeric hBehavior v, hBound, rfl⟩
  have hRead : parseMinBound
      (releaseNumeric behavior v ++ '-' :: stem ++ ['*']) =
      .ok (w, some ⟨behavior, floatPattern behavior w (some stem)⟩) := by
    have hLast : (releaseNumeric behavior v ++ '-' :: stem ++
        ['*']).getLast? = some '*' := List.getLast?_concat
    rw [parseMinBound_star hLast]
    rw [hSplit] at hLatest ⊢
    rw [parseFloat_release _ _ hLatest, hAgain]
    · simp only [List.mem_append, List.mem_cons]
      rintro (hIn | hBad | hIn | hBad)
      · exact (mem_releaseNumeric hIn).2.1 rfl
      · revert hBad
        decide
      · exact hStem hIn
      · revert hBad
        decide
    · intro hIn
      exact (mem_releaseNumeric hIn).1 rfl
  refine ⟨_, _, hRead, ?_, ?_⟩
  · dsimp only
    rw [floatPattern_release hBehavior w stem, hNumeric]
  · exact cmp_ne_gt_of_le hMajor hMinor hPatch hRevision rfl

theorem floatForm_star :
    FloatForm ⟨0, 0, 0, 0, [], none⟩ ⟨.Major, ['*']⟩ :=
  ⟨rfl, by decide, _, _, rfl, rfl, by decide⟩

theorem floatForm_latest :
    FloatForm ⟨0, 0, 0, 0, [['0']], none⟩
      ⟨.AbsoluteLatest, ['*', '-', '*']⟩ :=
  ⟨rfl, by decide, _, _, rfl, rfl, by decide⟩

/- A numeric pattern, as a bound. -/
theorem parseNumericFloat_floats
    (hPlus : '+' ∉ text)
    (hDash : '-' ∉ text)
    (hParse : parseNumericFloat text = .ok (v, float)) :
    v.WellFormed ∧ ∀ f, float = some f → FloatForm v f := by
  rw [parseNumericFloat_eq] at hParse
  cases hVersion : NuGetVersion.parse (text.dropLast ++ ['0']) with
  | error e =>
      rw [hVersion] at hParse
      cases hParse
  | ok w =>
      rw [hVersion] at hParse
      have hChars : ∀ c ∈ text.dropLast ++ ['0'], c ≠ '-' ∧ c ≠ '+' := by
        intro c hMem
        rcases List.mem_append.1 hMem with hIn | hZero
        · have hText := (List.dropLast_sublist _).mem hIn
          constructor
          · rintro rfl
            exact hDash hText
          · rintro rfl
            exact hPlus hText
        · rw [List.mem_singleton.1 hZero]
          decide
      have hLabels := parse_plain_labels hChars hVersion
      have hWell := parse_wellFormed hVersion
      have hMajor := hWell.major
      have hMinor := hWell.minor
      have hPatch := hWell.patch
      dsimp only at hParse
      split at hParse
      · cases hParse
        exact ⟨hWell, nofun⟩
      · cases hParse
        refine ⟨hWell, fun f hSome => ?_⟩
        cases hSome
        have hSmall : ∀ n ∈ [v.major], n ≤ 2 ^ 31 - 1 :=
          List.forall_mem_cons.2 ⟨hMajor, List.forall_mem_nil _⟩
        apply floatForm_numeric _ _ hSmall _ _ _ hLabels <;> simp
      · cases hParse
        refine ⟨hWell, fun f hSome => ?_⟩
        cases hSome
        have hSmall : ∀ n ∈ [v.major, v.minor], n ≤ 2 ^ 31 - 1 :=
          List.forall_mem_cons.2 ⟨hMajor,
            List.forall_mem_cons.2 ⟨hMinor, List.forall_mem_nil _⟩⟩
        apply floatForm_numeric _ _ hSmall _ _ _ hLabels <;> simp
      · cases hParse
        refine ⟨hWell, fun f hSome => ?_⟩
        cases hSome
        have hSmall : ∀ n ∈ [v.major, v.minor, v.patch],
            n ≤ 2 ^ 31 - 1 :=
          List.forall_mem_cons.2 ⟨hMajor, List.forall_mem_cons.2 ⟨hMinor,
            List.forall_mem_cons.2 ⟨hPatch, List.forall_mem_nil _⟩⟩⟩
        apply floatForm_numeric _ _ hSmall _ _ _ hLabels <;> simp
      · cases hParse

theorem drop_length_takeWhile
    (p : Char → Bool)
    (s : List Char) :
    s.drop (s.takeWhile p).length = s.dropWhile p := by
  induction s with
  | nil => rfl
  | cons c rest ih =>
      by_cases hKeep : p c = true
      · simp [hKeep, ih]
      · simp [hKeep]

/- A bound that floats has a pattern that is read as no greater a bound. -/
theorem parseMinBound_floats
    (hParse : parseMinBound text = .ok (v, float)) :
    v.WellFormed ∧ ∀ f, float = some f → FloatForm v f := by
  unfold parseMinBound at hParse
  by_cases hStar : text.getLast? = some '*'
  · rw [if_pos hStar] at hParse
    unfold parseFloat at hParse
    split at hParse
    · cases hParse
      refine ⟨⟨by decide, by decide, by decide, by decide, by simp, by simp⟩,
        fun f hSome => ?_⟩
      cases hSome
      exact floatForm_star
    split at hParse
    · cases hParse
      refine ⟨⟨by decide, by decide, by decide, by decide, by simp; decide,
        by simp⟩, fun f hSome => ?_⟩
      cases hSome
      exact floatForm_latest
    split at hParse
    · cases hParse
    next hPlus =>
    dsimp only at hParse
    rw [drop_length_takeWhile] at hParse
    have hText := List.takeWhile_append_dropWhile (p := (· != '-')) (l := text)
    have hDash : '-' ∉ text.takeWhile (· != '-') := by
      intro hMem
      have hNe := List.mem_takeWhile_imp hMem
      simp at hNe
    cases hTail : text.dropWhile (· != '-') with
    | nil =>
        rw [hTail] at hParse hText
        rw [List.append_nil] at hText
        rw [hText] at hDash
        exact parseNumericFloat_floats hPlus hDash hParse
    | cons d release =>
        rw [hTail] at hParse hText
        have hSign : d = '-' := by
          have hStop := List.head?_dropWhile_not (· != '-') text
          rw [hTail] at hStop
          simpa using hStop
        rw [hSign] at hText
        have hRelease : release.dropLast ++ ['*'] = release := by
          apply List.dropLast_append_getLast?
          rw [← hText, List.getLast?_append_cons] at hStar
          cases release with
          | nil => simp at hStar
          | cons c rest =>
              rw [List.getLast?_cons_cons] at hStar
              exact hStar
        rw [← hText] at hPlus
        simp only [List.mem_append, List.mem_cons, not_or] at hPlus
        rw [← hRelease] at hParse
        rcases floatForm_release hDash hPlus.1
          (fun hIn => hPlus.2.2 ((List.dropLast_sublist _).mem hIn))
          hParse with ⟨hWell, f, hFloat, hForm⟩
        refine ⟨hWell, fun g hSome => ?_⟩
        rw [hFloat] at hSome
        cases hSome
        exact hForm
  · rw [if_neg hStar] at hParse
    unfold parseVersionBound at hParse
    cases hVersion : NuGetVersion.parse text with
    | error e =>
        rw [hVersion] at hParse
        cases hParse
    | ok w =>
        rw [hVersion] at hParse
        cases hParse
        exact ⟨parse_wellFormed hVersion, nofun⟩

------------------------------------------------------------
-- Ranges
------------------------------------------------------------

namespace VersionRange

/- The interval of the parts between the brackets. -/
def ofParts
    (minInclusive maxInclusive : Bool)
    (parts : List (List Char)) :
    Except RangeParseError VersionRange :=
  if parts.all List.isEmpty then
    .error .Malformed
  else
    match parseBounds minInclusive maxInclusive parts with
    | .error e => .error e
    | .ok (min, float, max) =>
        if boundsMalformed minInclusive maxInclusive min max then
          .error .Malformed
        else
          .ok ⟨min, max, min.isSome && minInclusive,
            max.isSome && maxInclusive, float⟩

/- The range of a bare bound. -/
def ofBound
    (t : List Char) :
    Except RangeParseError VersionRange :=
  match parseMinBound t with
  | .error e => .error e
  | .ok (min, float) => .ok ⟨some min, none, true, false, float⟩

def opens
    (t : List Char) :
    Prop :=
  t.head? = some '[' ∨ t.head? = some '('

def closes
    (t : List Char) :
    Prop :=
  t.getLast? = some ']' ∨ t.getLast? = some ')'

instance
    (t : List Char) :
    Decidable (opens t) := by
  unfold opens
  infer_instance

instance
    (t : List Char) :
    Decidable (closes t) := by
  unfold closes
  infer_instance

theorem parse_eq
    (input : List Char) :
    parse input =
      let t := trim input
      if t = [] then
        .error .Empty
      else if ¬ opens t then
        if closes t then .error .Malformed else ofBound t
      else if ¬ closes t then
        .error .Malformed
      else
        ofParts (t.head? = some '[') (t.getLast? = some ']')
          ((t.tail.dropLast).splitOn ',') := by
  unfold parse ofParts ofBound
  simp only [bind, Except.bind, throw, throwThe, MonadExceptOf.throw,
    pure, Except.pure]
  by_cases hEmpty : trim input = []
  · simp [hEmpty]
  have hOpens : (trim input).head? = some '[' ∨
      (trim input).head? = some '(' ↔ opens (trim input) := Iff.rfl
  have hCloses : (trim input).getLast? = some ']' ∨
      (trim input).getLast? = some ')' ↔ closes (trim input) := Iff.rfl
  simp only [hOpens, hCloses, if_neg hEmpty]
  split
  · split
    · rfl
    · cases parseMinBound (trim input) <;> rfl
  split
  · rfl
  split
  · rfl
  cases parseBounds _ _ _ <;> rfl

/- What the parser promises of a range. -/
structure Accepted
    (range : VersionRange) :
    Prop where
  minAbsent : range.min = none →
    range.minInclusive = false ∧ range.float = none
  maxAbsent : range.max = none → range.maxInclusive = false
  min : ∀ v, range.min = some v →
    v.WellFormed ∧ ∀ f, range.float = some f → FloatForm v f
  max : ∀ v, range.max = some v → v.WellFormed
  ordered : boundsMalformed range.minInclusive range.maxInclusive
    range.min range.max = false

theorem boundsMalformed_coerced
    (minInclusive maxInclusive : Bool)
    (min max : Option NuGetVersion) :
    boundsMalformed (min.isSome && minInclusive)
        (max.isSome && maxInclusive) min max =
      boundsMalformed minInclusive maxInclusive min max := by
  cases min with
  | none => rfl
  | some v =>
      cases max with
      | none => rfl
      | some w => simp [boundsMalformed]

/- The lower bound of an interval, if it is there. -/
def readMin
    (lower : List Char) :
    Except RangeParseError (Option NuGetVersion × Option FloatSpec) :=
  if trim lower = [] then
    .ok (none, none)
  else
    match parseMinBound lower with
    | .error e => .error e
    | .ok (v, float) => .ok (some v, float)

/- The upper bound of an interval, if it is there. -/
def readMax
    (upper : List Char) :
    Except RangeParseError (Option NuGetVersion) :=
  if trim upper = [] then
    .ok none
  else
    match NuGetVersion.parse (trim upper) with
    | .error e => .error (.BadVersion e)
    | .ok v => .ok (some v)

theorem parseBounds_two
    (minInclusive maxInclusive : Bool)
    (lower upper : List Char) :
    parseBounds minInclusive maxInclusive [lower, upper] =
      match readMin lower with
      | .error e => .error e
      | .ok (min, float) =>
          match readMax upper with
          | .error e => .error e
          | .ok max => .ok (min, float, max) := by
  unfold parseBounds readMin readMax parseVersionBound
  dsimp only
  by_cases hLower : trim lower = []
  · by_cases hUpper : trim upper = []
    · simp only [hLower, hUpper]
      rfl
    · simp only [hLower, if_neg hUpper]
      cases NuGetVersion.parse (trim upper) <;> rfl
  · simp only [if_neg hLower]
    cases parseMinBound lower with
    | error e => rfl
    | ok bound =>
        by_cases hUpper : trim upper = []
        · simp only [hUpper]
          rfl
        · simp only [if_neg hUpper]
          cases NuGetVersion.parse (trim upper) <;> rfl

variable {maxInclusive minInclusive : Bool} {parts : List (List Char)}
variable {lower upper : List Char} {max min : Option NuGetVersion}
variable {range : VersionRange}

theorem readMin_ok
    (hRead : readMin lower = .ok (min, float)) :
    (min = none → float = none) ∧
      ∀ v, min = some v →
        v.WellFormed ∧ ∀ f, float = some f → FloatForm v f := by
  unfold readMin at hRead
  split at hRead
  · cases hRead
    exact ⟨fun _ => rfl, nofun⟩
  split at hRead
  · cases hRead
  next v float hBound =>
  cases hRead
  refine ⟨nofun, fun w hSome => ?_⟩
  cases hSome
  exact parseMinBound_floats hBound

theorem readMax_ok
    (hRead : readMax upper = .ok max) :
    ∀ v, max = some v → v.WellFormed := by
  unfold readMax at hRead
  split at hRead
  · cases hRead
    intro v hNone
    cases hNone
  split at hRead
  · cases hRead
  next v hVersion =>
  cases hRead
  intro w hSome
  cases hSome
  exact parse_wellFormed hVersion

theorem parseBounds_accepted
    (hParse : parseBounds minInclusive maxInclusive parts =
      .ok (min, float, max)) :
    (min = none → float = none) ∧
      (∀ v, min = some v →
        v.WellFormed ∧ ∀ f, float = some f → FloatForm v f) ∧
      ∀ v, max = some v → v.WellFormed := by
  rcases parts with _ | ⟨only, _ | ⟨upper, _ | ⟨third, rest⟩⟩⟩
  · cases hParse
  · unfold parseBounds at hParse
    dsimp only at hParse
    split at hParse
    · cases hParse
    split at hParse
    · cases hParse
      exact ⟨fun _ => rfl, nofun,
        nofun⟩
    unfold parseVersionBound at hParse
    cases hVersion : NuGetVersion.parse only with
    | error e =>
        rw [hVersion] at hParse
        cases hParse
    | ok w =>
        rw [hVersion] at hParse
        cases hParse
        have hWell := parse_wellFormed hVersion
        refine ⟨nofun, fun v hSome => ?_,
          fun v hSome => ?_⟩
        · cases hSome
          exact ⟨hWell, nofun⟩
        · cases hSome
          exact hWell
  · rw [parseBounds_two] at hParse
    split at hParse
    · cases hParse
    next min' float' hMin =>
    split at hParse
    · cases hParse
    next max' hMax =>
    cases hParse
    exact ⟨(readMin_ok hMin).1, (readMin_ok hMin).2, readMax_ok hMax⟩
  · cases hParse

theorem ofParts_accepted
    (hParse : ofParts minInclusive maxInclusive parts = .ok range) :
    range.Accepted := by
  unfold ofParts at hParse
  split at hParse
  · cases hParse
  split at hParse
  · cases hParse
  next min float max hBounds =>
  split at hParse
  · cases hParse
  next hOrdered =>
  cases hParse
  rcases parseBounds_accepted hBounds with ⟨hFloat, hMin, hMax⟩
  constructor
  · intro hNone
    dsimp only at hNone ⊢
    exact ⟨by simp [hNone], hFloat hNone⟩
  · intro hNone
    dsimp only at hNone ⊢
    simp [hNone]
  · exact hMin
  · exact hMax
  · dsimp only
    rw [boundsMalformed_coerced]
    rw [Bool.not_eq_true] at hOrdered
    exact hOrdered

theorem parse_accepted
    {input : List Char}
    (hParse : parse input = .ok range) :
    range.Accepted := by
  rw [parse_eq] at hParse
  dsimp only at hParse
  split at hParse
  · cases hParse
  split at hParse
  · split at hParse
    · cases hParse
    · unfold ofBound at hParse
      split at hParse
      · cases hParse
      · next min float hBound =>
          cases hParse
          constructor
          · intro hNone
            cases hNone
          · intro _
            rfl
          · intro v hSome
            cases hSome
            exact parseMinBound_floats hBound
          · intro v hNone
            cases hNone
          · rfl
  split at hParse
  · cases hParse
  · exact ofParts_accepted hParse

------------------------------------------------------------
-- The Printed Range
------------------------------------------------------------

def minText
    (range : VersionRange) :
    List Char :=
  match range.float, range.min with
  | some float, _ => float.pattern
  | none, some v => v.toNormalizedString
  | none, none => []

def maxText
    (range : VersionRange) :
    List Char :=
  match range.max with
  | some v => v.toNormalizedString
  | none => []

theorem toNormalizedString_eq
    (range : VersionRange) :
    range.toNormalizedString =
      (if range.minInclusive then '[' else '(') ::
        (range.minText ++ ',' :: ' ' :: range.maxText) ++
        [if range.maxInclusive then ']' else ')'] := by
  unfold toNormalizedString minText maxText
  simp

/- The parser finds the parts of a printed interval. -/
theorem parse_interval
    (minInclusive maxInclusive : Bool)
    (hLower : ',' ∉ lower)
    (hUpper : ',' ∉ upper) :
    parse ((if minInclusive then '[' else '(') ::
        (lower ++ ',' :: ' ' :: upper) ++
        [if maxInclusive then ']' else ')']) =
      ofParts minInclusive maxInclusive [lower, ' ' :: upper] := by
  have hOpening : ∀ b : Bool, isWhitespace (if b then '[' else '(') = false :=
    by decide
  have hClosing : ∀ b : Bool, isWhitespace (if b then ']' else ')') = false :=
    by decide
  have hTrim : ∀ (a z : Char) (mid : List Char), isWhitespace a = false →
      isWhitespace z = false → trim (a :: mid ++ [z]) = a :: mid ++ [z] := by
    intro a z mid hFirst hLast
    have hWhole := trim_append_cons hFirst [] (mid ++ [z])
    rw [List.nil_append, trimEnd_append_cons hLast] at hWhole
    exact hWhole
  have hSplit : (lower ++ ',' :: ' ' :: upper).splitOn ',' =
      [lower, ' ' :: upper] := by
    rw [List.splitOn_append_cons_self_of_not_mem hLower,
      List.splitOn_eq_singleton]
    simp [hUpper]
  rw [parse_eq, hTrim _ _ _ (hOpening minInclusive) (hClosing maxInclusive)]
  dsimp only
  have hFirst : opens ((if minInclusive then '[' else '(') ::
      (lower ++ ',' :: ' ' :: upper) ++
        [if maxInclusive then ']' else ')']) := by
    cases minInclusive <;> simp [opens]
  have hLast : closes ((if minInclusive then '[' else '(') ::
      (lower ++ ',' :: ' ' :: upper) ++
        [if maxInclusive then ']' else ')']) := by
    unfold closes
    rw [List.getLast?_concat]
    cases maxInclusive <;> simp
  rw [if_neg (by simp), if_neg (not_not.2 hFirst), if_neg (not_not.2 hLast),
    List.getLast?_concat, List.cons_append, List.tail_cons,
    List.dropLast_concat, hSplit]
  cases minInclusive <;> cases maxInclusive <;> rfl

/- A bound as the printed range has it. -/
structure Reread
    (range : VersionRange)
    (min : Option NuGetVersion)
    (float : Option FloatSpec) :
    Prop where
  read : readMin range.minText = .ok (min, float)
  present : min.isSome = range.min.isSome
  pattern : float.map FloatSpec.pattern = range.float.map FloatSpec.pattern
  fixed : range.float = none →
    min = range.min.map fun v => { v with metadata := none }
  least : ∀ v w, range.min = some v → min = some w → w.cmp v ≠ .gt

theorem readMin_of_bound
    (hText : trim lower ≠ [])
    (hBound : parseMinBound lower = .ok (v, float)) :
    readMin lower = .ok (some v, float) := by
  unfold readMin
  rw [if_neg hText, hBound]

/- A printed version is solid, and holds no comma and no star. -/
theorem solid_toNormalizedString
    (hWell : v.WellFormed) :
    trim v.toNormalizedString = v.toNormalizedString ∧
      v.toNormalizedString ≠ [] ∧
      ',' ∉ v.toNormalizedString ∧
      v.toNormalizedString.getLast? ≠ some '*' := by
  have hChars : ∀ c ∈ v.toNormalizedString,
      isWhitespace c = false ∧ c ≠ ',' ∧ c ≠ '*' := by
    intro c hMem
    rcases mem_toNormalizedString hWell hMem with rfl | rfl | hPart
    · decide
    · decide
    · refine ⟨(isPartByte_not_whitespace hPart).1, ?_, ?_⟩ <;>
        (rintro rfl
         revert hPart
         decide)
  refine ⟨trim_eq_self fun c hMem => (hChars c hMem).1, ?_,
    fun hComma => (hChars _ hComma).2.1 rfl, ?_⟩
  · intro hEmpty
    have hParse := parse_toNormalizedString hWell
    rw [hEmpty] at hParse
    cases hParse
  · intro hStar
    exact (hChars _ (List.mem_of_getLast? hStar)).2.2 rfl

theorem Accepted.reread
    (hAccepted : range.Accepted) :
    ',' ∉ range.minText ∧ ∃ min float, range.Reread min float := by
  cases hMin : range.min with
  | none =>
      have hFloat := (hAccepted.minAbsent hMin).2
      have hText : range.minText = [] := by
        unfold minText
        rw [hFloat, hMin]
      rw [hText]
      refine ⟨by simp, none, none, ?_, ?_, ?_, ?_, ?_⟩
      · rw [hText]
        rfl
      · rw [hMin]
      · rw [hFloat]
      · intro _
        rw [hMin]
        rfl
      · intro v w hNone
        rw [hMin] at hNone
        cases hNone
  | some v =>
      rcases hAccepted.min v hMin with ⟨hWell, hForm⟩
      cases hFloat : range.float with
      | none =>
          have hText : range.minText = v.toNormalizedString := by
            unfold minText
            rw [hFloat, hMin]
          rcases solid_toNormalizedString hWell with
            ⟨hTrim, hSome, hComma, hStar⟩
          have hBound : parseMinBound v.toNormalizedString =
              .ok ({ v with metadata := none }, none) := by
            unfold parseMinBound parseVersionBound
            rw [if_neg hStar, parse_toNormalizedString hWell]
            rfl
          rw [hText]
          refine ⟨hComma, some { v with metadata := none }, none,
            ?_, ?_, ?_, ?_, ?_⟩
          · rw [hText]
            exact readMin_of_bound (hTrim.symm ▸ hSome) hBound
          · rw [hMin]
            rfl
          · rw [hFloat]
          · intro _
            rw [hMin]
            rfl
          · intro v' w hSomeV hSomeW
            rw [hMin] at hSomeV
            cases hSomeV
            cases hSomeW
            exact cmp_ne_gt_of_le (Nat.le_refl _) (Nat.le_refl _)
              (Nat.le_refl _) (Nat.le_refl _) rfl
      | some f =>
          rcases hForm f hFloat with ⟨hStar, hComma, w, f', hRead, hPattern,
            hLeast⟩
          have hText : range.minText = f.pattern := by
            unfold minText
            rw [hFloat]
          have hTrim : trim f.pattern ≠ [] := by
            have hStarSolid : isWhitespace '*' = false := by decide
            rw [← List.dropLast_append_getLast? '*' hStar,
              trim_append_cons hStarSolid]
            simp
          rw [hText]
          refine ⟨hComma, some w, some f', ?_, ?_, ?_, ?_, ?_⟩
          · rw [hText]
            exact readMin_of_bound hTrim hRead
          · rw [hMin]
            rfl
          · rw [hFloat, Option.map_some, Option.map_some, hPattern]
          · intro hNone
            rw [hFloat] at hNone
            cases hNone
          · intro v' w' hSomeV hSomeW
            rw [hMin] at hSomeV
            cases hSomeV
            cases hSomeW
            exact hLeast

theorem Accepted.readMax
    (hAccepted : range.Accepted) :
    ',' ∉ range.maxText ∧
      VersionRange.readMax (' ' :: range.maxText) =
        .ok (range.max.map fun v => { v with metadata := none }) := by
  cases hMax : range.max with
  | none =>
      have hText : range.maxText = [] := by
        unfold maxText
        rw [hMax]
      rw [hText]
      exact ⟨by simp, rfl⟩
  | some v =>
      have hWell := hAccepted.max v hMax
      have hText : range.maxText = v.toNormalizedString := by
        unfold maxText
        rw [hMax]
      rcases solid_toNormalizedString hWell with ⟨hTrim, hSome, hComma, -⟩
      have hBlank : trim (' ' :: v.toNormalizedString) =
          v.toNormalizedString := by
        have hStart : trimStart (' ' :: v.toNormalizedString) =
            trimStart v.toNormalizedString := by
          have hSpace : isWhitespace ' ' = true := by decide
          simp [trimStart, hSpace]
        rw [trim_eq, hStart, ← trim_eq, hTrim]
      rw [hText]
      refine ⟨hComma, ?_⟩
      unfold VersionRange.readMax
      rw [hBlank, if_neg hSome, parse_toNormalizedString hWell]
      rfl

/- Bounds stay in order when the lower one gets no greater. -/
theorem boundsMalformed_of_least
    {min min' max : Option NuGetVersion}
    (hOrdered : boundsMalformed minInclusive maxInclusive min max = false)
    (hPresent : min'.isSome = min.isSome)
    (hLeast : ∀ v w, min = some v → min' = some w → w.cmp v ≠ .gt) :
    boundsMalformed minInclusive maxInclusive min'
      (max.map fun v => { v with metadata := none }) = false := by
  cases min' with
  | none => rfl
  | some w =>
      cases max with
      | none => rfl
      | some upper =>
          rcases Option.isSome_iff_exists.1 hPresent.symm with ⟨v, rfl⟩
          have hLe := hLeast v w rfl rfl
          have hSame : w.cmp { upper with metadata := none } = w.cmp upper :=
            rfl
          unfold boundsMalformed at hOrdered ⊢
          rw [Option.map_some]
          dsimp only at hOrdered ⊢
          rw [hSame]
          cases hOld : v.cmp upper with
          | gt =>
              rw [hOld] at hOrdered
              cases hOrdered
          | lt =>
              have hLess : w.cmp upper = .lt :=
                Std.TransCmp.lt_of_isLE_of_lt
                  (Ordering.isLE_iff_ne_gt.2 hLe) hOld
              rw [hLess]
          | eq =>
              rw [hOld] at hOrdered
              have hUpper : (w.cmp upper).isLE = true :=
                Std.TransCmp.isLE_trans (Ordering.isLE_iff_ne_gt.2 hLe)
                  (by rw [hOld]; rfl)
              cases hNew : w.cmp upper with
              | lt => rfl
              | eq => exact hOrdered
              | gt =>
                  rw [hNew] at hUpper
                  cases hUpper

/-
  A range that is printed and parsed prints the same again, and a range
  that does not float is the same range.
-/
theorem range_print_round_trip
    (input : List Char)
    (range : VersionRange)
    (hParse : parse input = .ok range) :
    ∃ again, parse range.toNormalizedString = .ok again ∧
      again.toNormalizedString = range.toNormalizedString ∧
      (range.isFloating = false →
        again.eq range = true ∧
          ∀ v, again.satisfies v = range.satisfies v) := by
  have hAccepted := parse_accepted hParse
  rcases hAccepted.reread with ⟨hLower, min, float, hReread⟩
  rcases hAccepted.readMax with ⟨hUpper, hMax⟩
  have hMinFlag : (min.isSome && range.minInclusive) =
      range.minInclusive := by
    rw [hReread.present]
    cases hMin : range.min with
    | none => simp [(hAccepted.minAbsent hMin).1]
    | some v => simp
  have hMaxFlag : ((range.max.map fun v =>
        { v with metadata := none }).isSome && range.maxInclusive) =
      range.maxInclusive := by
    cases hMax : range.max with
    | none => simp [hAccepted.maxAbsent hMax]
    | some v => simp
  let again : VersionRange := ⟨min,
    range.max.map fun v => { v with metadata := none },
    range.minInclusive, range.maxInclusive, float⟩
  have hAgain : parse range.toNormalizedString = .ok again := by
    rw [toNormalizedString_eq, parse_interval _ _ hLower hUpper]
    unfold ofParts
    rw [if_neg (by simp), parseBounds_two, hReread.read, hMax]
    dsimp only
    rw [boundsMalformed_of_least hAccepted.ordered hReread.present
      hReread.least, hMinFlag, hMaxFlag]
    rfl
  have hMinText : again.minText = range.minText := by
    have hPattern := hReread.pattern
    unfold minText
    cases hFloat : range.float with
    | some f =>
        rw [hFloat] at hPattern
        cases hNew : float with
        | none =>
            rw [hNew] at hPattern
            cases hPattern
        | some g =>
            have hOld : again.float = some g := hNew
            rw [hNew] at hPattern
            rw [hOld]
            exact Option.some.inj hPattern
    | none =>
        rw [hFloat] at hPattern
        have hFixed := hReread.fixed hFloat
        have hNew : float = none := by simpa using hPattern
        have hOld : again.float = none := hNew
        have hMin : again.min =
            range.min.map fun v => { v with metadata := none } := hFixed
        rw [hOld, hMin]
        cases range.min <;> rfl
  have hMaxText : again.maxText = range.maxText := by
    unfold maxText
    have hBound : again.max =
        range.max.map fun v => { v with metadata := none } := rfl
    rw [hBound]
    cases range.max <;> rfl
  refine ⟨again, hAgain, ?_, ?_⟩
  · rw [toNormalizedString_eq, toNormalizedString_eq, hMinText, hMaxText]
  · intro hFixed
    have hFloat : range.float = none := by
      simpa [isFloating] using hFixed
    have hMin : again.min =
        range.min.map fun v => { v with metadata := none } :=
      hReread.fixed hFloat
    have hNew : again.float = none := by
      have hPattern := hReread.pattern
      rw [hFloat] at hPattern
      simpa using hPattern
    have hMaxBound : again.max =
        range.max.map fun v => { v with metadata := none } := rfl
    have hEq : ∀ bound : Option NuGetVersion, boundEq
        (bound.map fun v => { v with metadata := none }) bound = true := by
      intro bound
      cases bound with
      | none => rfl
      | some v => exact eq_dropMetadata v
    constructor
    · unfold eq
      rw [hMin, hMaxBound, hNew, hFloat, hEq, hEq]
      simp [again]
    · intro v
      unfold satisfies
      rw [hMin, hMaxBound]
      cases range.min <;> cases range.max <;> rfl

/- A range whose floating bound prints another base. -/
theorem range_print_round_trip_float :
    ∃ range again, parse "[ 1.9*-beta *, 2)".toList = .ok range ∧
      range.toNormalizedString = "[1.*-beta *, 2.0.0)".toList ∧
      parse range.toNormalizedString = .ok again ∧
      again.toNormalizedString = range.toNormalizedString := by
  have hParse : ∃ range, parse "[ 1.9*-beta *, 2)".toList = .ok range ∧
      range.toNormalizedString = "[1.*-beta *, 2.0.0)".toList := by
    refine ⟨⟨some ⟨1, 90, 0, 0, ["beta".toList], none⟩,
      some ⟨2, 0, 0, 0, [], none⟩, true, false,
      some ⟨.PrereleaseMinor, "1.*-beta *".toList⟩⟩, ?_, ?_⟩ <;>
      decide
  rcases hParse with ⟨range, hRange, hText⟩
  rcases range_print_round_trip _ range hRange with
    ⟨again, hAgain, hPrint, -⟩
  exact ⟨range, again, hRange, hText, hAgain, hPrint⟩

end VersionRange

end NuGet

end Borzoi
