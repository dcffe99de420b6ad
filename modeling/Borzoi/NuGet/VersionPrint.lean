import Borzoi.NuGet.VersionOrder
import Borzoi.Text.Decimal
import Borzoi.Text.Joined
import Mathlib.Data.List.Forall2
import Mathlib.Data.List.GetD

/-
  Printed versions.

  A version is printed as its numbers, its release labels behind a dash
  and its metadata behind a plus sign.  The parser splits at the same
  signs, and no number, label or metadata holds the sign that ends it.

  Main declarations:
    * `NuGetVersion.toFullString`
    * `NuGetVersion.WellFormed`
    * `parse_wellFormed`
    * `parse_toNormalizedString`
    * `parse_toFullString`
    * `version_print_round_trip`
-/

namespace Borzoi

namespace NuGet

open Text

/- `to_full_string`. -/
def NuGetVersion.toFullString
    (v : NuGetVersion) :
    List Char :=
  match v.metadata with
  | some m => v.toNormalizedString ++ '+' :: m
  | none => v.toNormalizedString

/- What the parser promises of a version. -/
structure NuGetVersion.WellFormed
    (v : NuGetVersion) :
    Prop where
  major : v.major ≤ 2 ^ 31 - 1
  minor : v.minor ≤ 2 ^ 31 - 1
  patch : v.patch ≤ 2 ^ 31 - 1
  revision : v.revision ≤ 2 ^ 31 - 1
  labels : ∀ label ∈ v.releaseLabels, releaseLabel label = .ok label
  metadata : ∀ m, v.metadata = some m → parseMetadata m = .ok m

/- A numeral without its sign. -/
def stripPlus
    (s : List Char) :
    List Char :=
  match s with
  | '+' :: rest => rest
  | _ => s

/- The number of a component, given its digits. -/
def componentValue
    (digits : List Char) :
    Except VersionParseError Nat :=
  if digits = [] ∨ digits.all isAsciiDigit = false then
    .error .BadNumericPart
  else if 10 < (dropZeros digits).length then
    .error .BadNumericPart
  else if 2 ^ 31 - 1 < decimal (dropZeros digits) then
    .error .BadNumericPart
  else
    .ok (decimal (dropZeros digits))

theorem parseComponent_eq
    (component : List Char) :
    parseComponent component =
      componentValue (stripPlus (trim component)) :=
  rfl

variable {c : Char} {labels : List (List Char)} {label m text : List Char}
variable {ns : List Nat} {n : Nat} {v : NuGetVersion}
variable {metadata : Option (List Char)}

theorem parseComponent_le
    {component : List Char}
    (hParse : parseComponent component = .ok n) :
    n ≤ 2 ^ 31 - 1 := by
  rw [parseComponent_eq] at hParse
  unfold componentValue at hParse
  split at hParse
  · cases hParse
  split at hParse
  · cases hParse
  split at hParse
  · cases hParse
  · next hSmall =>
      rw [Except.ok.injEq] at hParse
      rw [← hParse]
      exact Nat.le_of_not_lt hSmall

theorem releaseLabel_eq
    (hLabel : releaseLabel text = .ok label) :
    label = text := by
  unfold releaseLabel at hLabel
  split at hLabel
  · cases hLabel
  split at hLabel
  · cases hLabel
  · cases hLabel
    rfl

theorem parseMetadata_eq
    (hMetadata : parseMetadata text = .ok m) :
    m = text := by
  unfold parseMetadata at hMetadata
  split at hMetadata
  · cases hMetadata
  · cases hMetadata
    rfl

/- A loop that stops at an error accepts what it accepts one by one. -/
theorem mapM_ok_iff
    {α β ε : Type}
    (f : α → Except ε β)
    (xs : List α)
    (ys : List β) :
    xs.mapM f = .ok ys ↔ List.Forall₂ (fun x y => f x = .ok y) xs ys := by
  induction xs generalizing ys with
  | nil =>
      cases ys with
      | nil => simp [pure, Except.pure]
      | cons y ys => simp [pure, Except.pure]
  | cons x xs ih =>
      rw [List.mapM_cons]
      cases hHead : f x with
      | error e => cases ys <;> simp [bind, Except.bind, hHead]
      | ok b =>
          cases hTail : xs.mapM f with
          | error e =>
              cases ys <;> simp [bind, Except.bind, ← ih, hTail, hHead]
          | ok bs =>
              cases ys <;>
                simp [bind, Except.bind, pure, Except.pure, ← ih, hTail,
                  hHead]

/- A loop whose body only checks. -/
theorem mapM_checked_iff
    {α ε : Type}
    {f : α → Except ε α}
    (hSame : ∀ x y, f x = .ok y → y = x)
    (xs ys : List α) :
    xs.mapM f = .ok ys ↔ ys = xs ∧ ∀ x ∈ xs, f x = .ok x := by
  rw [mapM_ok_iff]
  constructor
  · intro hMap
    induction hMap with
    | nil => simp
    | cons hHead hTail ih =>
        rcases ih with ⟨rfl, hAll⟩
        have hEq := hSame _ _ hHead
        subst hEq
        refine ⟨rfl, ?_⟩
        intro z hMem
        rcases List.mem_cons.1 hMem with rfl | hIn
        · exact hHead
        · exact hAll z hIn
  · rintro ⟨rfl, hAll⟩
    exact List.forall₂_same.2 hAll

theorem getD_le
    {nums : List Nat}
    {bound : Nat}
    (hNums : ∀ n ∈ nums, n ≤ bound)
    (i : Nat) :
    nums.getD i 0 ≤ bound := by
  by_cases hIn : i < nums.length
  · rw [List.getD_eq_getElem _ _ hIn]
    exact hNums _ (List.getElem_mem hIn)
  · rw [List.getD_eq_default _ _ (Nat.le_of_not_lt hIn)]
    exact Nat.zero_le _

/- The components of the numeric section. -/
def componentsOf
    (version : List Char) :
    List (List Char) :=
  (if '.' ∈ version then version else version ++ ['.', '0']).splitOn '.'

/- The release labels of a section, if there is one. -/
def labelsOf
    (release : Option (List Char)) :
    Except VersionParseError (List (List Char)) :=
  match release with
  | some text => (text.splitOn '.').mapM releaseLabel
  | none => .ok []

/- The metadata of a section, if there is one. -/
def metadataOf
    (metadata : Option (List Char)) :
    Except VersionParseError (Option (List Char)) :=
  match metadata with
  | some text => (parseMetadata text).map some
  | none => .ok none

/- The version of the sections of a text. -/
def ofSections
    (parts : List Char × Option (List Char) × Option (List Char)) :
    Except VersionParseError NuGetVersion :=
  if parts.1 = [] then
    .error .BadNumericPart
  else if 4 < (componentsOf parts.1).length then
    .error .WrongPartCount
  else
    match (componentsOf parts.1).mapM parseComponent with
    | .error e => .error e
    | .ok nums =>
        match labelsOf parts.2.1 with
        | .error e => .error e
        | .ok labels =>
            match metadataOf parts.2.2 with
            | .error e => .error e
            | .ok metadata =>
                .ok ⟨nums.getD 0 0, nums.getD 1 0, nums.getD 2 0,
                  nums.getD 3 0, labels, metadata⟩

theorem parse_eq
    (input : List Char) :
    NuGetVersion.parse input =
      if trim input = [] then
        .error .Empty
      else
        ofSections (sections (trim input)) := by
  unfold NuGetVersion.parse ofSections
  simp only [bind, Except.bind, throw, throwThe, MonadExceptOf.throw,
    pure, Except.pure]
  split
  · rfl
  split
  · rfl
  have hComponents : (if '.' ∈ (sections (trim input)).1 then
        (sections (trim input)).1
      else
        (sections (trim input)).1 ++ ['.', '0']).splitOn '.' =
      componentsOf (sections (trim input)).1 := rfl
  simp only [hComponents]
  split
  · rfl
  cases (componentsOf (sections (trim input)).1).mapM parseComponent with
  | error e => rfl
  | ok nums =>
      dsimp only
      unfold labelsOf metadataOf
      cases (sections (trim input)).2.1 with
      | none =>
          cases (sections (trim input)).2.2 with
          | none => rfl
          | some text =>
              dsimp only
              cases parseMetadata text <;> rfl
      | some release =>
          dsimp only
          cases (release.splitOn '.').mapM releaseLabel with
          | error e => rfl
          | ok labels =>
              cases (sections (trim input)).2.2 with
              | none => rfl
              | some text =>
                  dsimp only
                  cases parseMetadata text <;> rfl

theorem parse_wellFormed
    {input : List Char}
    (hParse : NuGetVersion.parse input = .ok v) :
    v.WellFormed := by
  rw [parse_eq] at hParse
  split at hParse
  · cases hParse
  unfold ofSections at hParse
  split at hParse
  · cases hParse
  split at hParse
  · cases hParse
  split at hParse
  · cases hParse
  next nums hNums =>
  split at hParse
  · cases hParse
  next labels hLabels =>
  split at hParse
  · cases hParse
  next metadata hMetadata =>
  cases hParse
  have hBound : ∀ i, nums.getD i 0 ≤ 2 ^ 31 - 1 := by
    apply getD_le
    intro n hMem
    rcases List.forall₂_iff_get.1 ((mapM_ok_iff _ _ _).1 hNums) with
      ⟨hLength, hGet⟩
    rcases List.mem_iff_getElem.1 hMem with ⟨i, hIn, rfl⟩
    exact parseComponent_le (hGet i (hLength ▸ hIn) hIn)
  refine ⟨hBound 0, hBound 1, hBound 2, hBound 3, ?_, ?_⟩
  · intro label hMem
    unfold labelsOf at hLabels
    split at hLabels
    · rcases (mapM_checked_iff (fun _ _ => releaseLabel_eq) _ _).1 hLabels
        with ⟨rfl, hAll⟩
      exact hAll label hMem
    · cases hLabels
      cases hMem
  · intro m hSome
    dsimp only at hSome
    subst hSome
    unfold metadataOf at hMetadata
    split at hMetadata
    · next text hSection =>
        cases hText : parseMetadata text with
        | error e =>
            rw [hText] at hMetadata
            cases hMetadata
        | ok m' =>
            rw [hText] at hMetadata
            cases hMetadata
            have hEq := parseMetadata_eq hText
            subst hEq
            exact hText
    · cases hMetadata

theorem isPartByte_not_whitespace
    (hPart : isPartByte c = true) :
    isWhitespace c = false ∧ c ≠ '.' ∧ c ≠ '+' := by
  have hCode : 45 ≤ c.toNat ∧ c.toNat ≤ 122 ∧ c.toNat ≠ 46 := by
    unfold isPartByte isAsciiDigit at hPart
    simp only [Bool.or_eq_true, Bool.and_eq_true, decide_eq_true_eq,
      beq_iff_eq, Char.le_def, UInt32.le_iff_toNat_le] at hPart
    rcases hPart with ((⟨hLo, hHi⟩ | ⟨hLo, hHi⟩) | ⟨hLo, hHi⟩) | hDash
    · have hFrom : 48 ≤ c.toNat := hLo
      have hTo : c.toNat ≤ 57 := hHi
      omega
    · have hFrom : 97 ≤ c.toNat := hLo
      have hTo : c.toNat ≤ 122 := hHi
      omega
    · have hFrom : 65 ≤ c.toNat := hLo
      have hTo : c.toNat ≤ 90 := hHi
      omega
    · rw [hDash]
      decide
  refine ⟨?_, ?_, ?_⟩
  · unfold isWhitespace
    simp only [Bool.or_eq_false_iff, Bool.and_eq_false_iff,
      decide_eq_false_iff_not, beq_eq_false_iff_ne]
    omega
  · rintro rfl
    exact hCode.2.2 rfl
  · rintro rfl
    exact absurd hCode.1 (by decide)

theorem isAsciiDigit_of_isDigit
    (hDigit : c.isDigit = true) :
    isAsciiDigit c = true := by
  unfold Char.isDigit at hDigit
  unfold isAsciiDigit
  simp only [Bool.and_eq_true, decide_eq_true_eq, Char.le_def] at hDigit ⊢
  exact hDigit

/- Trimming keeps a text without whitespace. -/
theorem trim_eq_self
    {s : List Char}
    (hNone : ∀ c ∈ s, isWhitespace c = false) :
    trim s = s := by
  have hKeep : ∀ t : List Char, (∀ c ∈ t, isWhitespace c = false) →
      t.dropWhile isWhitespace = t := by
    intro t hAll
    cases t with
    | nil => rfl
    | cons c rest => simp [hAll c List.mem_cons_self]
  unfold trim
  rw [hKeep s hNone, hKeep s.reverse (by simpa using hNone),
    List.reverse_reverse]

theorem parseComponent_toDigits
    (hSmall : n ≤ 2 ^ 31 - 1) :
    parseComponent (Nat.toDigits 10 n) = .ok n := by
  have hDigits : ∀ c ∈ Nat.toDigits 10 n, isAsciiDigit c = true :=
    fun c hMem => isAsciiDigit_of_isDigit (isDigit_of_mem_toDigits hMem)
  have hPart : ∀ c ∈ Nat.toDigits 10 n, isPartByte c = true := by
    intro c hMem
    simp [isPartByte, hDigits c hMem]
  have hTrim : trim (Nat.toDigits 10 n) = Nat.toDigits 10 n :=
    trim_eq_self fun c hMem => (isPartByte_not_whitespace (hPart c hMem)).1
  have hSign : stripPlus (Nat.toDigits 10 n) = Nat.toDigits 10 n := by
    unfold stripPlus
    split
    · next rest hPlus =>
        have hMem : '+' ∈ Nat.toDigits 10 n := by simp [hPlus]
        exact absurd rfl (isPartByte_not_whitespace (hPart _ hMem)).2.2
    · rfl
  have hValue : decimal (dropZeros (Nat.toDigits 10 n)) = n := by
    have hRead := ofDigitChars_dropZeros_toDigits n
    rw [Nat.ofDigitChars_eq_foldl] at hRead
    exact hRead
  have hShort : (dropZeros (Nat.toDigits 10 n)).length ≤ 10 :=
    length_dropZeros_toDigits (by decide) (by omega)
  rw [parseComponent_eq, hTrim, hSign]
  unfold componentValue
  rw [if_neg, if_neg, if_neg, hValue]
  · rw [hValue]
    omega
  · omega
  · simp [Nat.toDigits_ne_nil]
    exact hDigits

------------------------------------------------------------
-- Printed Texts
------------------------------------------------------------

/- Numbers, with dots between them. -/
def numsText
    (ns : List Nat) :
    List Char :=
  ['.'].intercalate (ns.map (Nat.toDigits 10))

/- A section behind its sign, if there is one. -/
def sectionText
    (sign : Char)
    (text : Option (List Char)) :
    List Char :=
  match text with
  | some text => sign :: text
  | none => []

/- The release section of a version, if it has labels. -/
def releaseSection
    (labels : List (List Char)) :
    Option (List Char) :=
  if labels = [] then none else some (['.'].intercalate labels)

/- The numbers a version prints. -/
def NuGetVersion.nums
    (v : NuGetVersion) :
    List Nat :=
  [v.major, v.minor, v.patch] ++ if v.revision ≠ 0 then [v.revision] else []

theorem toNormalizedString_eq
    (v : NuGetVersion) :
    v.toNormalizedString =
      numsText v.nums ++ sectionText '-' (releaseSection v.releaseLabels) := by
  unfold NuGetVersion.toNormalizedString NuGetVersion.nums numsText
    releaseSection
  by_cases hRevision : v.revision = 0
  · by_cases hLabels : v.releaseLabels = []
    · simp [hRevision, hLabels, sectionText, List.intercalate]
    · simp [hRevision, hLabels, sectionText, List.intercalate]
  · by_cases hLabels : v.releaseLabels = []
    · simp [hRevision, hLabels, sectionText, List.intercalate]
    · simp [hRevision, hLabels, sectionText, List.intercalate]

theorem toFullString_eq
    (v : NuGetVersion) :
    v.toFullString =
      numsText v.nums ++ sectionText '-' (releaseSection v.releaseLabels) ++
        sectionText '+' v.metadata := by
  unfold NuGetVersion.toFullString
  rw [toNormalizedString_eq]
  cases v.metadata with
  | none => simp [sectionText]
  | some m => rfl

theorem mem_numsText
    (hMem : c ∈ numsText ns) :
    c = '.' ∨ isAsciiDigit c = true := by
  rcases mem_intercalate hMem with hDot | ⟨part, hPart, hIn⟩
  · exact Or.inl (List.mem_singleton.1 hDot)
  · rcases List.mem_map.1 hPart with ⟨n, -, rfl⟩
    exact Or.inr (isAsciiDigit_of_isDigit (isDigit_of_mem_toDigits hIn))

/- The sections of a printed text. -/
theorem sections_text
    {version : List Char}
    {release metadata : Option (List Char)}
    (hVersion : ∀ c ∈ version, c ≠ '-' ∧ c ≠ '+')
    (hRelease : ∀ r, release = some r → '+' ∉ r) :
    sections (version ++ sectionText '-' release ++
        sectionText '+' metadata) =
      (version, release, metadata) := by
  have hTake : ∀ tail, (tail = [] ∨ ∃ rest, tail = '-' :: rest ∨
        tail = '+' :: rest) →
      (version ++ tail).takeWhile (fun c => c != '-' && c != '+') =
        version := by
    intro tail hTail
    rw [List.takeWhile_append_of_pos (by simpa using hVersion)]
    rcases hTail with rfl | ⟨rest, rfl | rfl⟩ <;> simp
  unfold sections
  rw [List.append_assoc]
  cases release with
  | none =>
      cases metadata with
      | none =>
          simp only [sectionText, List.nil_append]
          rw [hTake _ (Or.inl rfl)]
          simp
      | some m =>
          simp only [sectionText, List.nil_append]
          rw [hTake _ (Or.inr ⟨m, Or.inr rfl⟩)]
          simp
  | some r =>
      simp only [sectionText, List.cons_append]
      rw [hTake _ (Or.inr ⟨_, Or.inl rfl⟩)]
      have hPlus := hRelease r rfl
      have hStop : ∀ tail, (tail = [] ∨ ∃ rest, tail = '+' :: rest) →
          (r ++ tail).takeWhile (· != '+') = r := by
        intro tail hTail
        rw [List.takeWhile_append_of_pos]
        · rcases hTail with rfl | ⟨rest, rfl⟩ <;> simp
        · intro c hMem
          rw [bne_iff_ne]
          rintro rfl
          exact hPlus hMem
      cases metadata with
      | none =>
          simp only [List.drop_left]
          rw [hStop _ (Or.inl rfl)]
          simp
      | some m =>
          simp only [List.drop_left]
          rw [hStop _ (Or.inr ⟨m, rfl⟩)]
          simp

/- What the parser promises of labels. -/
theorem releaseLabel_ok
    (hLabel : releaseLabel label = .ok label) :
    label ≠ [] ∧ ∀ c ∈ label, isPartByte c = true := by
  unfold releaseLabel at hLabel
  by_cases hBad : label = [] ∨ label.all isPartByte = false
  · rw [if_pos hBad] at hLabel
    cases hLabel
  · rw [not_or, Bool.not_eq_false, List.all_eq_true] at hBad
    exact hBad

/- What the parser promises of metadata. -/
theorem parseMetadata_ok
    (hMetadata : parseMetadata m = .ok m) :
    ∀ c ∈ m, c = '.' ∨ isPartByte c = true := by
  unfold parseMetadata at hMetadata
  split at hMetadata
  · cases hMetadata
  · next hGood =>
      intro c hMem
      have hJoin : ['.'].intercalate (m.splitOn '.') = m :=
        List.intercalate_splitOn '.'
      rw [← hJoin] at hMem
      rcases mem_intercalate hMem with hDot | ⟨part, hPart, hIn⟩
      · exact Or.inl (List.mem_singleton.1 hDot)
      · apply Or.inr
        rw [not_or, Bool.not_eq_true, List.any_eq_false] at hGood
        have hAll := hGood.2 part hPart
        simp only [Bool.or_eq_true, not_or, Bool.not_eq_true',
          Bool.not_eq_false, List.all_eq_true] at hAll
        exact hAll.2 c hIn

theorem labelsOf_releaseSection
    (hLabels : ∀ label ∈ labels, releaseLabel label = .ok label) :
    labelsOf (releaseSection labels) = .ok labels := by
  unfold releaseSection
  by_cases hNone : labels = []
  · rw [if_pos hNone, hNone]
    rfl
  · rw [if_neg hNone]
    unfold labelsOf
    dsimp only
    rw [List.splitOn_intercalate '.' _ hNone]
    · exact (mapM_checked_iff (fun _ _ => releaseLabel_eq) _ _).2
        ⟨rfl, hLabels⟩
    · intro label hMem hDot
      have hPart := (releaseLabel_ok (hLabels label hMem)).2 '.' hDot
      exact (isPartByte_not_whitespace hPart).2.1 rfl

theorem componentsOf_numsText
    (hSome : ns ≠ []) :
    componentsOf (numsText ns) =
      (if ns.length = 1 then ns ++ [0] else ns).map (Nat.toDigits 10) := by
  have hSplit : ∀ ms : List Nat, ms ≠ [] →
      (numsText ms).splitOn '.' = ms.map (Nat.toDigits 10) := by
    intro ms hMs
    apply List.splitOn_intercalate
    · intro part hPart
      rcases List.mem_map.1 hPart with ⟨n, -, rfl⟩
      exact not_mem_toDigits rfl
    · simpa using hMs
  unfold componentsOf
  rcases ns with _ | ⟨a, _ | ⟨b, rest⟩⟩
  · exact absurd rfl hSome
  · have hDot : '.' ∉ numsText [a] := by
      have hOne : numsText [a] = Nat.toDigits 10 a := by
        simp [numsText, List.intercalate]
      rw [hOne]
      exact not_mem_toDigits rfl
    have hPad : numsText [a] ++ ['.', '0'] = numsText [a, 0] := by
      simp [numsText, List.intercalate]
    rw [if_neg hDot, hPad, hSplit _ (by simp)]
    rfl
  · have hDot : '.' ∈ numsText (a :: b :: rest) := by
      simp [numsText, List.intercalate_cons_cons]
    rw [if_pos hDot, hSplit _ (by simp), if_neg (by simp)]

theorem metadataOf_checked
    (hMetadata : ∀ m, metadata = some m → parseMetadata m = .ok m) :
    metadataOf metadata = .ok metadata := by
  cases metadata with
  | none => rfl
  | some m => simp [metadataOf, hMetadata m rfl, Except.map]

/- The parser reads printed numbers. -/
theorem ofSections_numsText
    {release text metadata : Option (List Char)}
    (hSome : ns ≠ [])
    (hCount : ns.length ≤ 4)
    (hSmall : ∀ n ∈ ns, n ≤ 2 ^ 31 - 1)
    (hLabels : labelsOf release = .ok labels)
    (hMetadata : metadataOf text = .ok metadata) :
    ofSections (numsText ns, release, text) =
      .ok ⟨ns.getD 0 0, ns.getD 1 0, ns.getD 2 0, ns.getD 3 0, labels,
        metadata⟩ := by
  have hComponents := componentsOf_numsText hSome
  have hText : numsText ns ≠ [] := by
    cases ns with
    | nil => exact absurd rfl hSome
    | cons n rest =>
        cases rest with
        | nil => simp [numsText, List.intercalate, Nat.toDigits_ne_nil]
        | cons m rest => simp [numsText, List.intercalate_cons_cons]
  have hRead : ∀ ms : List Nat, (∀ n ∈ ms, n ≤ 2 ^ 31 - 1) →
      (ms.map (Nat.toDigits 10)).mapM parseComponent = .ok ms := by
    intro ms hAll
    rw [mapM_ok_iff, List.forall₂_map_left_iff, List.forall₂_same]
    intro n hMem
    exact parseComponent_toDigits (hAll n hMem)
  unfold ofSections
  dsimp only
  rw [if_neg hText, hComponents, hLabels, hMetadata]
  by_cases hOne : ns.length = 1
  · rcases List.length_eq_one_iff.1 hOne with ⟨n, rfl⟩
    rw [if_pos hOne, if_neg (by simp), hRead _ (by simpa using hSmall)]
    rfl
  · rw [if_neg hOne, List.length_map, if_neg (Nat.not_lt_of_le hCount),
      hRead _ hSmall]

theorem mem_releaseSection
    (hLabels : ∀ label ∈ labels, releaseLabel label = .ok label)
    {r : List Char}
    (hSection : releaseSection labels = some r)
    (hMem : c ∈ r) :
    c = '.' ∨ isPartByte c = true := by
  unfold releaseSection at hSection
  split at hSection
  · cases hSection
  · cases hSection
    rcases mem_intercalate hMem with hDot | ⟨label, hLabel, hIn⟩
    · exact Or.inl (List.mem_singleton.1 hDot)
    · exact Or.inr ((releaseLabel_ok (hLabels label hLabel)).2 c hIn)

/- The characters of a printed version. -/
theorem mem_printed
    {ns : List Nat}
    {labels : List (List Char)}
    {metadata : Option (List Char)}
    (hLabels : ∀ label ∈ labels, releaseLabel label = .ok label)
    (hMetadata : ∀ m, metadata = some m → parseMetadata m = .ok m)
    {c : Char}
    (hMem : c ∈ numsText ns ++ sectionText '-' (releaseSection labels) ++
      sectionText '+' metadata) :
    c = '.' ∨ c = '+' ∨ isPartByte c = true := by
  have hPlain : c = '.' ∨ isPartByte c = true →
      c = '.' ∨ c = '+' ∨ isPartByte c = true := by
    rintro (hDot | hPart)
    · exact Or.inl hDot
    · exact Or.inr (Or.inr hPart)
  rw [List.mem_append, List.mem_append] at hMem
  rcases hMem with (hIn | hIn) | hIn
  · rcases mem_numsText hIn with hDot | hDigit
    · exact Or.inl hDot
    · simp [isPartByte, hDigit]
  · unfold sectionText at hIn
    split at hIn
    · next r hSection =>
        rcases List.mem_cons.1 hIn with rfl | hText
        · decide
        · exact hPlain (mem_releaseSection hLabels hSection hText)
    · cases hIn
  · unfold sectionText at hIn
    split at hIn
    · rcases List.mem_cons.1 hIn with hPlus | hText
      · exact Or.inr (Or.inl hPlus)
      · exact hPlain (parseMetadata_ok (hMetadata _ rfl) c hText)
    · cases hIn

theorem parse_printed
    {ns : List Nat}
    {labels : List (List Char)}
    {metadata : Option (List Char)}
    (hSome : ns ≠ [])
    (hCount : ns.length ≤ 4)
    (hSmall : ∀ n ∈ ns, n ≤ 2 ^ 31 - 1)
    (hLabels : ∀ label ∈ labels, releaseLabel label = .ok label)
    (hMetadata : ∀ m, metadata = some m → parseMetadata m = .ok m) :
    NuGetVersion.parse (numsText ns ++
        sectionText '-' (releaseSection labels) ++
        sectionText '+' metadata) =
      .ok ⟨ns.getD 0 0, ns.getD 1 0, ns.getD 2 0, ns.getD 3 0, labels,
        metadata⟩ := by
  have hNone : ∀ c ∈ numsText ns ++ sectionText '-' (releaseSection labels) ++
      sectionText '+' metadata, isWhitespace c = false := by
    intro c hMem
    rcases mem_printed hLabels hMetadata hMem with rfl | rfl | hPart
    · decide
    · decide
    · exact (isPartByte_not_whitespace hPart).1
  have hSections : sections (numsText ns ++
        sectionText '-' (releaseSection labels) ++ sectionText '+' metadata) =
      (numsText ns, releaseSection labels, metadata) := by
    apply sections_text
    · intro c hMem
      rcases mem_numsText hMem with rfl | hDigit
      · decide
      · constructor
        · rintro rfl
          revert hDigit
          decide
        · rintro rfl
          revert hDigit
          decide
    · intro r hSection hPlus
      rcases mem_releaseSection hLabels hSection hPlus with hDot | hPart
      · cases hDot
      · exact (isPartByte_not_whitespace hPart).2.2 rfl
  have hText := ofSections_numsText hSome hCount hSmall
    (labelsOf_releaseSection hLabels) (metadataOf_checked hMetadata)
  rw [parse_eq, trim_eq_self hNone, hSections, hText, if_neg]
  intro hEmpty
  rw [List.append_eq_nil_iff, List.append_eq_nil_iff] at hEmpty
  unfold ofSections at hText
  rw [if_pos hEmpty.1.1] at hText
  cases hText

section

variable (hWell : v.WellFormed)

include hWell

theorem nums_small :
    ∀ n ∈ v.nums, n ≤ 2 ^ 31 - 1 := by
  intro n hMem
  unfold NuGetVersion.nums at hMem
  rw [List.mem_append] at hMem
  rcases hMem with hIn | hIn
  · simp only [List.mem_cons, List.not_mem_nil, or_false] at hIn
    rcases hIn with rfl | rfl | rfl
    · exact hWell.major
    · exact hWell.minor
    · exact hWell.patch
  · split at hIn
    · rw [List.mem_singleton.1 hIn]
      exact hWell.revision
    · cases hIn

theorem parse_print
    (hMetadata : ∀ m, metadata = some m → parseMetadata m = .ok m) :
    NuGetVersion.parse (numsText v.nums ++
        sectionText '-' (releaseSection v.releaseLabels) ++
        sectionText '+' metadata) =
      .ok { v with metadata := metadata } := by
  have hSome : v.nums ≠ [] := by simp [NuGetVersion.nums]
  have hCount : v.nums.length ≤ 4 := by
    unfold NuGetVersion.nums
    split <;> simp
  rw [parse_printed hSome hCount (nums_small hWell) hWell.labels hMetadata]
  unfold NuGetVersion.nums
  by_cases hRevision : v.revision = 0
  · simp [hRevision]
  · simp [hRevision]

theorem parse_toNormalizedString :
    NuGetVersion.parse v.toNormalizedString =
      .ok { v with metadata := none } := by
  have hParse := parse_print hWell (fun m (hNone : none = some m) => by
    cases hNone)
  rw [toNormalizedString_eq]
  simpa [sectionText] using hParse

theorem parse_toFullString :
    NuGetVersion.parse v.toFullString = .ok v := by
  rw [toFullString_eq]
  exact parse_print hWell hWell.metadata

theorem mem_toNormalizedString
    (hMem : c ∈ v.toNormalizedString) :
    c = '.' ∨ c = '+' ∨ isPartByte c = true := by
  rw [toNormalizedString_eq] at hMem
  apply @mem_printed v.nums v.releaseLabels none hWell.labels
  · intro m hNone
    cases hNone
  · simpa [sectionText] using hMem

end

theorem eq_dropMetadata
    (v : NuGetVersion) :
    ({ v with metadata := none }).eq v = true :=
  (eq_iff _ _).2 ⟨rfl, rfl, rfl, rfl, rfl⟩

/- What the parser accepts, it reads back from both printed forms. -/
theorem version_print_round_trip
    (input : List Char)
    (v : NuGetVersion)
    (hParse : NuGetVersion.parse input = .ok v) :
    NuGetVersion.parse v.toFullString = .ok v ∧
      ∃ w, NuGetVersion.parse v.toNormalizedString = .ok w ∧
        w.eq v = true := by
  have hWell := parse_wellFormed hParse
  exact ⟨parse_toFullString hWell, _, parse_toNormalizedString hWell,
    eq_dropMetadata v⟩

/- A version with a revision, labels and metadata. -/
theorem version_print_round_trip_labels :
    ∃ v, NuGetVersion.parse "01.2. 3.4-beta.-01+Build.7-x".toList = .ok v ∧
      NuGetVersion.parse v.toFullString = .ok v ∧
      ∃ w, NuGetVersion.parse v.toNormalizedString = .ok w ∧
        w.eq v = true := by
  have hParse : NuGetVersion.parse
      "01.2. 3.4-beta.-01+Build.7-x".toList = .ok ⟨1, 2, 3, 4,
        ["beta".toList, "-01".toList], some "Build.7-x".toList⟩ := by
    decide
  exact ⟨_, hParse, version_print_round_trip _ _ hParse⟩

end NuGet

end Borzoi
