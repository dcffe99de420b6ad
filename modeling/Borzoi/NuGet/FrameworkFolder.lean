import Borzoi.NuGet.Framework
import Borzoi.NuGet.VersionPrint
import Mathlib.Data.List.TakeWhile

/-
  The short folder names of the three families that are built for.

  A name is an identifier, a version and behind a dash a profile or a
  platform.  Each of the three is printed in characters that end the one
  before it.

  Main declarations:
    * `FolderForm`
    * `parseFolder_form`
    * `parseShortVersion_dotted`
    * `canonicalProfile_profileShort`
    * `folder_name_round_trip`
-/

namespace Borzoi

namespace NuGet

open Text
open FrameworkId NuGetFramework

variable {c : Char} {s t : List Char}

/- What holds of the characters of ASCII, one by one. -/
theorem forall_ascii
    {P : Char → Prop}
    (hAll : ∀ n < 128, P (Char.ofNat n))
    (hAscii : c.toNat < 128) :
    P c := by
  have hChar := hAll c.toNat hAscii
  rwa [Char.ofNat_toNat] at hChar

theorem toLower_of_not_ascii
    (hAscii : ¬ c.toNat < 128) :
    c.toLower = c := by
  unfold Char.toLower
  rw [dif_neg]
  rintro ⟨_, hUpper⟩
  have hLe : c.toNat ≤ 90 := hUpper
  omega

theorem toLower_toLower
    (c : Char) :
    c.toLower.toLower = c.toLower := by
  by_cases hAscii : c.toNat < 128
  · exact forall_ascii (P := fun c => c.toLower.toLower = c.toLower)
      (by decide) hAscii
  · rw [toLower_of_not_ascii hAscii, toLower_of_not_ascii hAscii]

theorem ascii_of_isProfileByte
    (hByte : isProfileByte c = true) :
    c.toNat < 128 := by
  unfold isProfileByte isAsciiAlphabetic isAsciiDigit at hByte
  simp only [Bool.or_eq_true, Bool.and_eq_true, decide_eq_true_eq,
    beq_iff_eq] at hByte
  rcases hByte with ((((⟨_, hHigh⟩ | ⟨_, hHigh⟩) | ⟨_, hHigh⟩) | rfl) | rfl) | rfl
  · have hLe : c.toNat ≤ 122 := hHigh
    omega
  · have hLe : c.toNat ≤ 90 := hHigh
    omega
  · have hLe : c.toNat ≤ 57 := hHigh
    omega
  · decide
  · decide
  · decide

theorem profileByte_plain
    (hByte : isProfileByte c = true) :
    isWhitespace c = false ∧ c ≠ ',' := by
  have hAll : ∀ n < 128, isProfileByte (Char.ofNat n) = true →
      isWhitespace (Char.ofNat n) = false ∧ Char.ofNat n ≠ ',' := by
    decide
  exact forall_ascii
    (P := fun c => isProfileByte c = true → isWhitespace c = false ∧ c ≠ ',')
    hAll (ascii_of_isProfileByte hByte) hByte

theorem isProfileByte_toLower
    (c : Char) :
    isProfileByte c.toLower = isProfileByte c := by
  by_cases hAscii : c.toNat < 128
  · exact forall_ascii (P := fun c => isProfileByte c.toLower = isProfileByte c)
      (by decide) hAscii
  · rw [toLower_of_not_ascii hAscii]

theorem isAsciiAlphabetic_toLower
    (c : Char) :
    isAsciiAlphabetic c.toLower = isAsciiAlphabetic c := by
  by_cases hAscii : c.toNat < 128
  · exact forall_ascii
      (P := fun c => isAsciiAlphabetic c.toLower = isAsciiAlphabetic c)
      (by decide) hAscii
  · rw [toLower_of_not_ascii hAscii]

/- The characters of versions: digits and dots. -/
def isVersionByte
    (c : Char) :
    Bool :=
  isAsciiDigit c || c == '.'

theorem versionByte_plain
    (hByte : isVersionByte c = true) :
    isProfileByte c = true ∧ c ≠ '-' ∧ c.toLower = c := by
  have hProfile : isProfileByte c = true := by
    unfold isVersionByte at hByte
    unfold isProfileByte
    rcases Bool.or_eq_true_iff.1 hByte with hByte | hByte
    · rw [hByte]
      simp
    · rw [hByte]
      simp
  have hAll : ∀ n < 128, isVersionByte (Char.ofNat n) = true →
      Char.ofNat n ≠ '-' ∧ (Char.ofNat n).toLower = Char.ofNat n := by
    decide
  exact ⟨hProfile, forall_ascii
    (P := fun c => isVersionByte c = true → c ≠ '-' ∧ c.toLower = c)
    hAll (ascii_of_isProfileByte hProfile) hByte⟩

theorem digit_not_nameByte
    (hDigit : isAsciiDigit c = true) :
    isAsciiAlphabetic c = false ∧ c ≠ '.' := by
  have hByte : isProfileByte c = true := by
    unfold isProfileByte
    rw [hDigit]
    simp
  have hAll : ∀ n < 128, isAsciiDigit (Char.ofNat n) = true →
      isAsciiAlphabetic (Char.ofNat n) = false ∧ Char.ofNat n ≠ '.' := by
    decide
  exact forall_ascii
    (P := fun c => isAsciiDigit c = true →
      isAsciiAlphabetic c = false ∧ c ≠ '.')
    hAll (ascii_of_isProfileByte hByte) hDigit

theorem lowercase_lowercase
    (s : List Char) :
    toAsciiLowercase (toAsciiLowercase s) = toAsciiLowercase s := by
  unfold toAsciiLowercase
  rw [List.map_map]
  exact List.map_congr_left fun c _ => toLower_toLower c

theorem lowercase_append
    (s t : List Char) :
    toAsciiLowercase (s ++ t) = toAsciiLowercase s ++ toAsciiLowercase t :=
  List.map_append

theorem eqIgnoreAsciiCase_iff :
    eqIgnoreAsciiCase s t = true ↔
      toAsciiLowercase s = toAsciiLowercase t := by
  have hBytes : ∀ u : List Char,
      lowerBytes u = (toAsciiLowercase u).map Char.toNat := by
    intro u
    unfold lowerBytes toAsciiLowercase
    rw [List.map_map]
    rfl
  unfold eqIgnoreAsciiCase
  rw [beq_iff_eq, hBytes, hBytes]
  constructor
  · intro hEq
    exact List.map_injective_iff.2 (fun _ _ => Char.toNat_inj.1) hEq
  · intro hEq
    rw [hEq]

theorem lowercase_versionText
    (hText : ∀ c ∈ s, isVersionByte c = true) :
    toAsciiLowercase s = s := by
  unfold toAsciiLowercase
  conv_rhs => rw [← List.map_id s]
  exact List.map_congr_left fun c hc => (versionByte_plain (hText c hc)).2.2

/- A head in lower case, of a text in lower case. -/
theorem afterHead_iff
    {head : List Char} :
    afterHead head s = some t ↔ s = head ++ t := by
  unfold afterHead
  split
  · rename_i hStarts
    rcases List.isPrefixOf_iff_prefix.1 hStarts with ⟨tail, rfl⟩
    rw [List.drop_left, Option.some_inj, List.append_cancel_left_eq]
  · rename_i hNot
    constructor
    · intro hAfter
      cases hAfter
    · rintro rfl
      exact absurd
        (List.isPrefixOf_iff_prefix.2 (List.prefix_append head t)) hNot

/- Four components of 32 bits. -/
structure IsVersion
    (version : List Nat) :
    Prop where
  length : version.length = 4
  small : ∀ n ∈ version, n ≤ 2 ^ 31 - 1

theorem zero_isVersion :
    IsVersion [0, 0, 0, 0] where
  length := rfl
  small := by simp

variable {framework identifier : List Char} {number version : List Nat}
variable {k n : Nat} {f : NuGetFramework}
variable {platform : Option (List Char × List Nat)}
variable {profile : Option (List Char)} {α β : Type} {xs : List α} {ys : List β}

theorem versionPart_small
    (hPart : versionPart s = some n) :
    n ≤ 2 ^ 31 - 1 := by
  unfold versionPart at hPart
  split at hPart
  · cases hPart
  · split at hPart
    · cases hPart
    · rename_i hSmall
      cases hPart
      exact Nat.le_of_not_lt hSmall

theorem filled_isVersion
    (hLength : version.length ≤ 4)
    (hSmall : ∀ n ∈ version, n ≤ 2 ^ 31 - 1) :
    IsVersion (version ++ List.replicate (4 - version.length) 0) where
  length := by
    rw [List.length_append, List.length_replicate]
    omega
  small := by
    intro n hn
    rcases List.mem_append.1 hn with hn | hn
    · exact hSmall n hn
    · rw [List.eq_of_mem_replicate hn]
      exact Nat.zero_le _

theorem mapM_some
    {f : α → Option β}
    (hMap : xs.mapM f = some ys) :
    List.Forall₂ (fun x y => f x = some y) xs ys := by
  induction xs generalizing ys with
  | nil =>
      cases hMap
      exact .nil
  | cons x xs ih =>
      rw [List.mapM_cons] at hMap
      rcases Option.bind_eq_some_iff.1 hMap with ⟨y, hHead, hMap⟩
      rcases Option.bind_eq_some_iff.1 hMap with ⟨ys', hTail, hMap⟩
      cases hMap
      exact .cons hHead (ih hTail)

theorem mapM_of_forall
    {f : α → Option β}
    (hAll : List.Forall₂ (fun x y => f x = some y) xs ys) :
    xs.mapM f = some ys := by
  induction hAll with
  | nil => rfl
  | cons hHead _ ih =>
      rw [List.mapM_cons, hHead, ih]
      rfl

theorem fillParts_isVersion
    {parts : List (List Char)}
    (hFill : fillParts parts = some version) :
    IsVersion version := by
  unfold fillParts at hFill
  split at hFill
  · cases hFill
  · rename_i hCount
    rcases Option.map_eq_some_iff.1 hFill with ⟨nums, hNums, rfl⟩
    have hAll := mapM_some hNums
    apply filled_isVersion
    · rw [← hAll.length_eq]
      omega
    · intro n hn
      rcases List.getElem_of_mem hn with ⟨i, hi, rfl⟩
      have hParts := List.forall₂_iff_get.1 hAll
      exact versionPart_small (hParts.2 i (by rw [hAll.length_eq]; exact hi) hi)

theorem digit_value_small
    (hDigit : isAsciiDigit c = true) :
    c.toNat - '0'.toNat ≤ 9 := by
  unfold isAsciiDigit at hDigit
  simp only [Bool.and_eq_true, decide_eq_true_eq] at hDigit
  have hHigh : c.toNat ≤ 57 := hDigit.2
  have hZero : '0'.toNat = 48 := rfl
  omega

theorem parseShortVersion_isVersion
    (hParse : parseShortVersion s = some version) :
    IsVersion version := by
  unfold parseShortVersion at hParse
  split at hParse
  · cases hParse
    exact zero_isVersion
  · split at hParse
    · exact fillParts_isVersion hParse
    · split at hParse
      · cases hParse
      · rename_i hDigits
        cases hParse
        apply filled_isVersion
        · rw [List.length_map, List.length_take]
          exact Nat.min_le_left 4 _
        · intro n hn
          rcases List.mem_map.1 hn with ⟨c, hc, rfl⟩
          have hAll : s.all isAsciiDigit = true := by simpa using hDigits
          have hDigit := List.all_eq_true.1 hAll c (List.mem_of_mem_take hc)
          have hSmall := digit_value_small hDigit
          omega

variable {least : Nat} {version : List Nat}

theorem lastPart_le
    (least : Nat)
    (version : List Nat)
    (k : Nat) :
    lastPart least version k ≤ k := by
  induction k with
  | zero => exact Nat.le_refl 0
  | succ k ih =>
      rw [lastPart]
      split
      · exact Nat.le_succ_of_le ih
      · exact Nat.le_refl _

theorem least_le_lastPart
    (hLeast : least ≤ k) :
    least ≤ lastPart least version k := by
  induction k with
  | zero => exact hLeast
  | succ k ih =>
      rw [lastPart]
      split
      · rename_i hZero
        exact ih (Nat.le_of_lt_succ hZero.1)
      · exact hLeast

/- Only zeros are left out. -/
theorem take_lastPart
    (least : Nat)
    (hLength : k ≤ version.length) :
    version.take k =
      version.take (lastPart least version k) ++
        List.replicate (k - lastPart least version k) 0 := by
  induction k with
  | zero => rfl
  | succ k ih =>
      rw [lastPart]
      split
      · rename_i hZero
        have hLe := lastPart_le least version k
        have hLast : version[k] = 0 := by
          rw [← List.getD_eq_getElem version 0 hLength]
          exact hZero.2
        rw [List.take_succ_eq_append_getElem hLength, ih (by omega), hLast,
          List.append_assoc, ← List.replicate_succ', Nat.succ_sub hLe]
      · rw [Nat.sub_self, List.replicate_zero, List.append_nil]

theorem keptParts_length
    (hVersion : IsVersion version) :
    (keptParts least version).length = lastPart least version 4 := by
  unfold keptParts
  rw [List.length_take, hVersion.length]
  exact Nat.min_eq_left (lastPart_le least version 4)

theorem keptParts_fill
    (hVersion : IsVersion version) :
    keptParts least version ++
      List.replicate (4 - (keptParts least version).length) 0 =
        version := by
  have hTake := take_lastPart least
    (Nat.le_of_eq hVersion.length.symm)
  rw [List.take_of_length_le (Nat.le_of_eq hVersion.length)] at hTake
  rw [keptParts_length hVersion]
  exact hTake.symm

theorem keptParts_count
    (least : Nat)
    (hVersion : IsVersion version)
    (hLeast : least ≤ 4) :
    least ≤ (keptParts least version).length ∧
      (keptParts least version).length ≤ 4 := by
  rw [keptParts_length hVersion]
  exact ⟨least_le_lastPart hLeast, lastPart_le least version 4⟩

theorem versionPart_toDigits
    (hSmall : n ≤ 2 ^ 31 - 1) :
    versionPart (Nat.toDigits 10 n) = some n := by
  have hValue : decimal (Nat.toDigits 10 n) = n := by
    have hRead := Nat.ofDigitChars_ten_toDigits (n := n)
    rw [Nat.ofDigitChars_eq_foldl] at hRead
    exact hRead
  have hShort : (Nat.toDigits 10 n).length ≤ 10 :=
    (Nat.length_toDigits_le_iff (by decide) (by decide)).2 (by omega)
  have hDigits : (Nat.toDigits 10 n).all isAsciiDigit = true := by
    rw [List.all_eq_true]
    exact fun c hc => isAsciiDigit_of_isDigit (isDigit_of_mem_toDigits hc)
  unfold versionPart
  rw [hValue, if_neg, if_neg (Nat.not_lt_of_le hSmall)]
  rintro (hNil | hBad | hLong)
  · exact Nat.toDigits_ne_nil hNil
  · rw [hDigits] at hBad
    cases hBad
  · omega

theorem parseDottedVersion_dotted
    (hVersion : IsVersion version)
    (hLeast : 1 ≤ least ∧ least ≤ 4) :
    parseDottedVersion (dotted version least) = some version := by
  have hCount := keptParts_count least hVersion hLeast.2
  have hSmall : ∀ n ∈ keptParts least version, n ≤ 2 ^ 31 - 1 :=
    fun n hn => hVersion.small n (List.mem_of_mem_take hn)
  have hSplit : (dotted version least).splitOn '.' =
      (keptParts least version).map (Nat.toDigits 10) := by
    apply List.splitOn_intercalate
    · intro part hPart
      rcases List.mem_map.1 hPart with ⟨n, _, rfl⟩
      exact not_mem_toDigits (by decide)
    · intro hNil
      rw [List.map_eq_nil_iff] at hNil
      rw [hNil, List.length_nil] at hCount
      omega
  have hParts : ((keptParts least version).map (Nat.toDigits 10)).mapM
      versionPart = some (keptParts least version) := by
    apply mapM_of_forall
    rw [List.forall₂_map_left_iff, List.forall₂_same]
    exact fun n hn => versionPart_toDigits (hSmall n hn)
  unfold parseDottedVersion fillParts
  rw [hSplit, if_neg, hParts, Option.map_some, keptParts_fill hVersion]
  rintro (hNil | hLong)
  · rw [List.map_eq_nil_iff] at hNil
    rw [hNil, List.length_nil] at hCount
    omega
  · rw [List.length_map] at hLong
    omega

theorem dotted_bytes
    (hText : c ∈ dotted version least) :
    isVersionByte c = true := by
  unfold isVersionByte
  rcases mem_numsText hText with rfl | hDigit
  · rfl
  · rw [hDigit]
    rfl

/- A printed version of two components or more has a dot, and starts with a
   digit. -/
theorem dotted_two
    (hVersion : IsVersion version) :
    ∃ digit rest, dotted version 2 = digit :: rest ∧
      isAsciiDigit digit = true ∧ '.' ∈ dotted version 2 := by
  have hCount := keptParts_count 2 hVersion (by decide)
  unfold dotted
  match hKept : keptParts 2 version with
  | [] =>
      rw [hKept, List.length_nil] at hCount
      omega
  | [a] =>
      rw [hKept, List.length_singleton] at hCount
      omega
  | a :: b :: more =>
      rw [List.map_cons, List.map_cons, List.intercalate_cons_cons]
      cases hDigits : Nat.toDigits 10 a with
      | nil => exact absurd hDigits Nat.toDigits_ne_nil
      | cons digit digits =>
          refine ⟨digit, _, rfl, ?_, by simp⟩
          apply isAsciiDigit_of_isDigit
          apply isDigit_of_mem_toDigits (n := a)
          rw [hDigits]
          exact List.mem_cons_self

theorem parseShortVersion_dotted
    (hVersion : IsVersion version) :
    parseShortVersion (dotted version 2) = some version := by
  rcases dotted_two hVersion with ⟨digit, rest, hText, _, hDot⟩
  unfold parseShortVersion
  rw [if_neg, if_pos hDot]
  · exact parseDottedVersion_dotted hVersion (by decide)
  · rw [hText]
    exact List.cons_ne_nil digit rest

/- One digit for each component. -/
theorem flatMap_digits
    {nums : List Nat}
    (hSmall : ∀ n ∈ nums, n ≤ 9) :
    nums.flatMap (Nat.toDigits 10) = nums.map Nat.digitChar := by
  induction nums with
  | nil => rfl
  | cons n nums ih =>
      have hHead : n < 10 := Nat.lt_succ_of_le (hSmall n List.mem_cons_self)
      rw [List.flatMap_cons, List.map_cons, Nat.toDigits_of_lt_base hHead,
        ih fun m hm => hSmall m (List.mem_cons_of_mem n hm)]
      rfl

theorem digitChar_digit
    (hSmall : n ≤ 9) :
    isAsciiDigit n.digitChar = true ∧ n.digitChar.toNat - '0'.toNat = n := by
  have hAll : ∀ n ≤ 9, isAsciiDigit n.digitChar = true ∧
      n.digitChar.toNat - '0'.toNat = n := by
    decide
  exact hAll n hSmall

/- How a version is written together: with dots, or in digits. -/
theorem concatParts_cases
    (least : Nat) :
    concatParts least version = dotted version 2 ∨
      (concatParts least version =
        (keptParts least version).map Nat.digitChar ∧
        ∀ n ∈ keptParts least version, n ≤ 9) := by
  unfold concatParts
  simp only
  split
  · exact .inl rfl
  · rename_i hAny
    have hSmall : ∀ n ∈ keptParts least version, n ≤ 9 := by
      simpa using hAny
    exact .inr ⟨flatMap_digits hSmall, hSmall⟩

theorem parseShortVersion_concat
    (hVersion : IsVersion version)
    (hLeast : 1 ≤ least ∧ least ≤ 4) :
    parseShortVersion (concatParts least version) = some version := by
  have hCount := keptParts_count least hVersion hLeast.2
  rcases concatParts_cases least with
    hDotted | ⟨hDigits, hSmall⟩
  · rw [hDotted]
    exact parseShortVersion_dotted hVersion
  · have hAll : ∀ c ∈ (keptParts least version).map Nat.digitChar,
        isAsciiDigit c = true := by
      intro c hc
      rcases List.mem_map.1 hc with ⟨n, hn, rfl⟩
      exact (digitChar_digit (hSmall n hn)).1
    have hValues : ((keptParts least version).map Nat.digitChar).map
        (fun c => c.toNat - '0'.toNat) = keptParts least version := by
      rw [List.map_map]
      conv_rhs => rw [← List.map_id (keptParts least version)]
      exact List.map_congr_left fun n hn =>
        (digitChar_digit (hSmall n hn)).2
    rw [hDigits]
    unfold parseShortVersion
    rw [if_neg, if_neg, if_neg]
    · simp only
      rw [List.take_of_length_le (by rw [List.length_map]; exact hCount.2),
        hValues, keptParts_fill hVersion]
    · rw [List.all_eq_true.2 hAll]
      decide
    · intro hDot
      exact (digit_not_nameByte (hAll _ hDot)).2 rfl
    · intro hNil
      rw [List.map_eq_nil_iff] at hNil
      rw [hNil, List.length_nil] at hCount
      omega

/- A text that is read as the version, in digits and dots and with a digit
   first. -/
structure VersionText
    (text : List Char)
    (version : List Nat) :
    Prop where
  parses : parseShortVersion text = some version
  bytes : ∀ c ∈ text, isVersionByte c = true
  head : ∀ c rest, text = c :: rest → isAsciiDigit c = true

theorem versionText_nil :
    VersionText [] [0, 0, 0, 0] where
  parses := rfl
  bytes := by simp
  head := by simp

section

variable (hVersion : IsVersion version)

include hVersion

theorem versionText_dotted :
    VersionText (dotted version 2) version where
  parses := parseShortVersion_dotted hVersion
  bytes := fun _ hc => dotted_bytes hc
  head := by
    rcases dotted_two hVersion with ⟨digit, rest, hText, hDigit, _⟩
    intro c tail hCons
    rw [hText] at hCons
    cases hCons
    exact hDigit

theorem versionText_concat :
    VersionText (digitConcat version) version := by
  unfold digitConcat
  rcases concatParts_cases 2 with hDotted | ⟨hDigits, hSmall⟩
  · rw [hDotted]
    exact versionText_dotted hVersion
  · have hAll : ∀ c ∈ concatParts 2 version, isAsciiDigit c = true := by
      rw [hDigits]
      intro c hc
      rcases List.mem_map.1 hc with ⟨n, hn, rfl⟩
      exact (digitChar_digit (hSmall n hn)).1
    refine ⟨parseShortVersion_concat hVersion (by decide), ?_, ?_⟩
    · intro c hc
      unfold isVersionByte
      rw [hAll c hc]
      rfl
    · intro c rest hText
      apply hAll c
      rw [hText]
      exact List.mem_cons_self

theorem versionText_tail2 :
    VersionText (tail2 version) version := by
  unfold tail2
  split
  · rename_i hZero
    rw [beq_iff_eq.1 hZero]
    exact versionText_nil
  · exact versionText_concat hVersion

theorem versionText_dottedTail :
    VersionText (dottedTail version) version := by
  unfold dottedTail
  split
  · rename_i hZero
    rw [beq_iff_eq.1 hZero]
    exact versionText_nil
  · exact versionText_dotted hVersion

end

------------------------------------------------------------
-- Profiles
------------------------------------------------------------

/- The texts a profile is read from. -/
structure ProfileText
    (profile : List Char) :
    Prop where
  nonempty : profile ≠ []
  bytes : ∀ c ∈ profile, isProfileByte c = true

theorem profileText_lowercase
    (hText : ProfileText s) :
    ProfileText (toAsciiLowercase s) where
  nonempty := by
    intro hNil
    exact hText.nonempty (List.map_eq_nil_iff.1 hNil)
  bytes := by
    intro c hc
    rcases List.mem_map.1 hc with ⟨d, hd, rfl⟩
    rw [isProfileByte_toLower]
    exact hText.bytes d hd

/- The kinds of a profile, by its text in lower case. -/
theorem canonicalProfile_cases
    {profile : List Char}
    (hCanonical : canonicalProfile s = some profile) :
    profile = "Client".toList ∨ profile = "CompactFramework".toList ∨
    (∃ rest, toAsciiLowercase s = "wp".toList ++ rest ∧
      profile = "WindowsPhone".toList ++ rest) ∨
    (profile = s ∧ toAsciiLowercase s ≠ "full".toList ∧
      toAsciiLowercase s ≠ "client".toList ∧
      toAsciiLowercase s ≠ "cf".toList ∧
      ∀ rest, toAsciiLowercase s ≠ "wp".toList ++ rest) := by
  unfold canonicalProfile at hCanonical
  simp only at hCanonical
  split at hCanonical
  · cases hCanonical
  · rename_i hFull
    split at hCanonical
    · cases hCanonical
      exact .inl rfl
    · rename_i hClient
      split at hCanonical
      · cases hCanonical
        exact .inr (.inl rfl)
      · rename_i hCf
        split at hCanonical
        · rename_i rest hPhone
          cases hCanonical
          exact .inr (.inr (.inl ⟨rest, afterHead_iff.1 hPhone, rfl⟩))
        · rename_i hPhone
          cases hCanonical
          refine .inr (.inr (.inr ⟨rfl, hFull, hClient, hCf, ?_⟩))
          intro rest hText
          rw [afterHead_iff.2 hText] at hPhone
          cases hPhone

/- A profile that starts with `wp`. -/
theorem canonicalProfile_phone
    (hLower : toAsciiLowercase s = s) :
    canonicalProfile ("wp".toList ++ s) =
      some ("WindowsPhone".toList ++ s) := by
  have hText : toAsciiLowercase ("wp".toList ++ s) = "wp".toList ++ s := by
    rw [lowercase_append, hLower]
    rfl
  unfold canonicalProfile
  simp only
  rw [hText, if_neg, if_neg, if_neg, afterHead_iff.2 rfl]
  · intro hEq
    cases hEq
  · intro hEq
    cases hEq
  · intro hEq
    cases hEq

/- What a profile is shown as is read as the profile. -/
theorem canonicalProfile_profileShort
    {profile : List Char}
    (hText : ProfileText s)
    (hCanonical : canonicalProfile s = some profile) :
    ProfileText (profileShort profile) ∧
      toAsciiLowercase (profileShort profile) = profileShort profile ∧
      ∃ again, canonicalProfile (profileShort profile) = some again ∧
        eqIgnoreAsciiCase again profile = true := by
  have hLower := profileText_lowercase hText
  rcases canonicalProfile_cases hCanonical with
    rfl | rfl | ⟨rest, hPhone, rfl⟩ | ⟨rfl, hFull, hClient, hCf, hPhone⟩
  · exact ⟨⟨by decide, forall_mem_of_all (by decide)⟩, by decide,
      "Client".toList, by decide, by decide⟩
  · exact ⟨⟨by decide, forall_mem_of_all (by decide)⟩, by decide,
      "CompactFramework".toList, by decide, by decide⟩
  · have hRest : toAsciiLowercase rest = rest := by
      have hTwice := lowercase_lowercase s
      rw [hPhone, lowercase_append] at hTwice
      exact List.append_cancel_left hTwice
    have hWord : toAsciiLowercase "WindowsPhone".toList =
        "windowsphone".toList := by
      decide
    have hShort : profileShort ("WindowsPhone".toList ++ rest) =
        "wp".toList ++ rest := by
      unfold profileShort
      rw [if_neg, lowercase_append, hRest, hWord, afterHead_iff.2 rfl]
      intro hEq
      rw [eqIgnoreAsciiCase_iff, lowercase_append] at hEq
      cases hEq
    rw [hShort, ← hPhone]
    refine ⟨hLower, lowercase_lowercase s,
      "WindowsPhone".toList ++ rest, ?_, ?_⟩
    · rw [hPhone]
      exact canonicalProfile_phone hRest
    · exact eqIgnoreAsciiCase_iff.2 rfl
  · unfold profileShort
    split
    · rename_i hCompact
      exact ⟨⟨by decide, forall_mem_of_all (by decide)⟩, by decide,
        "CompactFramework".toList, by decide, by
          rw [eqIgnoreAsciiCase_iff] at hCompact ⊢
          exact hCompact.symm⟩
    · split
      · rename_i rest hWindows
        rw [afterHead_iff] at hWindows
        have hRest : toAsciiLowercase rest = rest := by
          have hTwice := lowercase_lowercase profile
          rw [hWindows, lowercase_append] at hTwice
          exact List.append_cancel_left hTwice
        have hBytes : ∀ c ∈ rest, isProfileByte c = true := by
          intro c hc
          apply hLower.bytes c
          rw [hWindows]
          exact List.mem_append_right _ hc
        refine ⟨⟨by simp, ?_⟩, ?_, "WindowsPhone".toList ++ rest,
          canonicalProfile_phone hRest, ?_⟩
        · intro c hc
          rcases List.mem_append.1 hc with hc | hc
          · have hAll : ∀ c ∈ "wp".toList, isProfileByte c = true :=
              forall_mem_of_all (by decide)
            exact hAll c hc
          · exact hBytes c hc
        · rw [lowercase_append, hRest]
          rfl
        · rw [eqIgnoreAsciiCase_iff, hWindows, lowercase_append, hRest]
          rfl
      · refine ⟨hLower, lowercase_lowercase profile,
          toAsciiLowercase profile, ?_, ?_⟩
        · unfold canonicalProfile
          simp only
          rw [lowercase_lowercase, if_neg hFull, if_neg hClient, if_neg hCf]
          split
          · rename_i rest hStarts
            exact absurd (afterHead_iff.1 hStarts) (hPhone rest)
          · rfl
        · rw [eqIgnoreAsciiCase_iff, lowercase_lowercase]

/- A `.NETCoreApp` of version 5 or later: its suffix is a platform. -/
def IsModern
    (framework : List Char)
    (version : List Nat) :
    Prop :=
  framework = NET_CORE_APP ∧ 5 ≤ version.getD 0 0

instance :
    DecidableRel IsModern := fun framework version =>
  inferInstanceAs
    (Decidable (framework = NET_CORE_APP ∧ 5 ≤ version.getD 0 0))

/- What `parse_short` puts behind the identifier and the version. -/
inductive SuffixForm
    (framework : List Char)
    (version : List Nat) :
    Option (List Char × List Nat) → Option (List Char) → Prop
  | none : SuffixForm framework version none none
  | platform
      {name : List Char}
      {number : List Nat}
      (hModern : IsModern framework version)
      (hName : name ≠ [])
      (hLetters : ∀ c ∈ name, isAsciiAlphabetic c = true)
      (hNumber : IsVersion number) :
      SuffixForm framework version (some (name, number)) Option.none
  | profile
      {text : List Char}
      (hModern : ¬ IsModern framework version)
      (hText : ProfileText text) :
      SuffixForm framework version Option.none (canonicalProfile text)

/- The identifiers `parse_short` gives. -/
def shortIdentifiers :
    List (List Char) :=
  NET_CORE_APP :: NET_FRAMEWORK ::
    (SHORT_ALIASES.map Prod.snd ++ CANONICAL_IDENTIFIERS)

theorem defaultVersion_isVersion
    (framework : List Char) :
    IsVersion (defaultVersion framework) := by
  unfold defaultVersion
  split
  · exact ⟨rfl, by simp⟩
  · exact zero_isVersion

theorem shortIdentifier_ok
    {name versionText framework : List Char}
    {suffix : Option (List Char)}
    (hShort : shortIdentifier name versionText suffix =
      some (framework, version)) :
    framework ∈ shortIdentifiers ∧ IsVersion version := by
  unfold shortIdentifier at hShort
  simp only at hShort
  split at hShort
  · cases hShort
  · split at hShort
    · rcases Option.map_eq_some_iff.1 hShort with ⟨parsed, hParsed, hEq⟩
      have hVersion := parseShortVersion_isVersion hParsed
      split at hEq
      · cases hEq
        exact ⟨List.mem_cons_self, hVersion⟩
      · cases hEq
        exact ⟨List.mem_cons_of_mem _ List.mem_cons_self, hVersion⟩
    · rcases Option.bind_eq_some_iff.1 hShort with
        ⟨canonical, hCanonical, hShort⟩
      have hMem : canonical ∈ shortIdentifiers := by
        apply List.mem_cons_of_mem
        apply List.mem_cons_of_mem
        rcases Option.or_eq_some_iff.1 hCanonical with hAlias | ⟨_, hName⟩
        · rcases Option.map_eq_some_iff.1 hAlias with ⟨entry, hEntry, rfl⟩
          exact List.mem_append_left _
            (List.mem_map_of_mem (List.mem_of_find?_eq_some hEntry))
        · exact List.mem_append_right _ (List.mem_of_find?_eq_some hName)
      split at hShort
      · cases hShort
      · rcases Option.map_eq_some_iff.1 hShort with ⟨parsed, hParsed, hEq⟩
        split at hEq
        · cases hEq
          exact ⟨hMem, defaultVersion_isVersion framework⟩
        · cases hEq
          exact ⟨hMem, parseShortVersion_isVersion hParsed⟩

theorem shortPlatform_ok
    {original suffix name : List Char}
    (hLower : toAsciiLowercase original = suffix)
    (hPlatform : shortPlatform original suffix = some (name, number)) :
    name ≠ [] ∧ (∀ c ∈ name, isAsciiAlphabetic c = true) ∧
      IsVersion number := by
  have hTake : toAsciiLowercase (original.take
      (suffix.takeWhile isAsciiAlphabetic).length) =
        suffix.takeWhile isAsciiAlphabetic := by
    unfold toAsciiLowercase at hLower ⊢
    rw [List.map_take, hLower]
    exact (List.prefix_iff_eq_take.1 (List.takeWhile_prefix _)).symm
  have hName : suffix.takeWhile isAsciiAlphabetic ≠ [] →
      original.take (suffix.takeWhile isAsciiAlphabetic).length ≠ [] ∧
      ∀ c ∈ original.take (suffix.takeWhile isAsciiAlphabetic).length,
        isAsciiAlphabetic c = true := by
    intro hSome
    constructor
    · intro hNil
      rw [hNil] at hTake
      exact hSome hTake.symm
    · intro c hc
      have hMem : c.toLower ∈ suffix.takeWhile isAsciiAlphabetic := by
        rw [← hTake]
        exact List.mem_map_of_mem hc
      rw [← isAsciiAlphabetic_toLower]
      exact List.mem_takeWhile_imp hMem
  unfold shortPlatform at hPlatform
  simp only at hPlatform
  split at hPlatform
  · cases hPlatform
  · rename_i hSome
    have hBoth := hName hSome
    split at hPlatform
    · cases hPlatform
      exact ⟨hBoth.1, hBoth.2, zero_isVersion⟩
    · split at hPlatform
      · rcases Option.map_eq_some_iff.1 hPlatform with
          ⟨parsed, hParsed, hEq⟩
        cases hEq
        exact ⟨hBoth.1, hBoth.2, fillParts_isVersion hParsed⟩
      · cases hPlatform

/- A framework that is not portable, as it is parsed. -/
structure FolderForm
    (f : NuGetFramework) :
    Prop where
  identifier : f.framework ∈ shortIdentifiers
  version : IsVersion f.version
  suffix : SuffixForm f.framework f.version f.platform f.profile

theorem drop_lowercase
    {suffix : List Char}
    (hSuffix : suffix <:+ toAsciiLowercase s) :
    toAsciiLowercase (s.drop (s.length - suffix.length)) = suffix := by
  unfold toAsciiLowercase at hSuffix ⊢
  rw [List.map_drop]
  rcases hSuffix with ⟨front, hFront⟩
  have hLength := congrArg List.length hFront
  rw [List.length_append, List.length_map] at hLength
  have hDrop : s.length - suffix.length = front.length := by
    omega
  rw [← hFront, hDrop, List.drop_left]

theorem parseShortPlain_form
    (hParse : parseShortPlain s (toAsciiLowercase s) = f) :
    f = unsupported ∨ FolderForm f := by
  unfold parseShortPlain at hParse
  simp only at hParse
  split at hParse
  · exact .inl hParse.symm
  · rename_i framework version hShort
    have hOk := shortIdentifier_ok hShort
    split at hParse
    · subst hParse
      exact .inr ⟨hOk.1, hOk.2, .none⟩
    · rename_i suffix hSuffix
      have hTail : suffix <:+ toAsciiLowercase s := by
        split at hSuffix
        · cases hSuffix
          exact ((List.tail_suffix _).trans (List.dropWhile_suffix _)).trans
            (List.dropWhile_suffix _)
        · cases hSuffix
      have hLower := drop_lowercase hTail
      split at hParse
      · rename_i hModern
        split at hParse
        · rename_i platform hPlatform
          subst hParse
          have hName := shortPlatform_ok hLower hPlatform
          exact .inr ⟨hOk.1, hOk.2,
            .platform hModern hName.1 hName.2.1 hName.2.2⟩
        · exact .inl hParse.symm
      · rename_i hModern
        split at hParse
        · exact .inl hParse.symm
        · rename_i hBytes
          subst hParse
          have hBytes' : suffix ≠ [] ∧ suffix.all isProfileByte = true := by
            simpa using hBytes
          refine .inr ⟨hOk.1, hOk.2, .profile hModern ⟨?_, ?_⟩⟩
          · intro hNil
            rw [hNil] at hLower
            exact hBytes'.1 hLower.symm
          · intro c hc
            rw [← isProfileByte_toLower]
            apply List.all_eq_true.1 hBytes'.2
            rw [← hLower]
            exact List.mem_map_of_mem hc

/- A portable text gives a portable framework or none. -/
theorem parsePortable_ok
    {fuel : Nat}
    {list : List Char}
    (hParse : parsePortable fuel version list = .ok f) :
    f = unsupported ∨ f.framework = PORTABLE := by
  cases fuel with
  | zero =>
      rw [parsePortable] at hParse
      cases hParse
      exact .inl rfl
  | succ fuel =>
      rw [parsePortable] at hParse
      split at hParse
      · cases hParse
        exact .inl rfl
      · split at hParse
        · cases hParse
          exact .inr rfl
        · simp only [bind, Except.bind] at hParse
          split at hParse
          · cases hParse
          · split at hParse <;> cases hParse <;> exact .inr rfl

/- What `parse_folder` gives. -/
theorem parseFolder_form
    (hParse : parseFolder s = .ok f) :
    f = unsupported ∨ f.framework = PORTABLE ∨ FolderForm f := by
  unfold parseFolder parseShortText at hParse
  split at hParse
  · cases hParse
    exact .inl rfl
  · rw [parseShort] at hParse
    split at hParse
    · cases hParse
      exact .inl rfl
    · split at hParse
      · rcases parseShortPlain_form (Except.ok.inj hParse) with hNone | hForm
        · exact .inl hNone
        · exact .inr (.inr hForm)
      · simp only at hParse
        split at hParse
        · split at hParse
          · cases hParse
            exact .inl rfl
          · rcases parsePortable_ok hParse with hNone | hPortable
            · exact .inl hNone
            · exact .inr (.inl hPortable)
        · cases hParse
          exact .inl rfl

------------------------------------------------------------
-- Printed names
------------------------------------------------------------

/- The identifiers a name of the three families starts with. -/
def printedWords :
    List (List Char) :=
  ["net".toList, "netcoreapp".toList, "netstandard".toList]

def suffixText
    (suffix : Option (List Char)) :
    List Char :=
  match suffix with
  | none => []
  | some text => '-' :: text

def isNameByte
    (c : Char) :
    Bool :=
  isAsciiAlphabetic c || c == '.'

/- A name in its three pieces, as it is printed. -/
structure NamePieces
    (word versionText : List Char)
    (suffix : Option (List Char))
    (version : List Nat) :
    Prop where
  word : word ∈ printedWords
  version : VersionText versionText version
  bytes : ∀ text, suffix = some text → ∀ c ∈ text, isProfileByte c = true
  lower : ∀ text, suffix = some text → toAsciiLowercase text = text

variable {word versionText : List Char} {suffix : Option (List Char)}

def nameText
    (word versionText : List Char)
    (suffix : Option (List Char)) :
    List Char :=
  word ++ (versionText ++ suffixText suffix)

namespace NamePieces

section

variable (hPieces : NamePieces word versionText suffix version)

include hPieces

theorem word_bytes :
    toAsciiLowercase word = word ∧
      (∀ c ∈ word, isNameByte c = true ∧ isProfileByte c = true) := by
  have hAll : ∀ word ∈ printedWords, toAsciiLowercase word = word ∧
      word.all (fun c => isNameByte c && isProfileByte c) = true := by
    decide
  rcases hAll word hPieces.word with ⟨hLower, hBytes⟩
  refine ⟨hLower, ?_⟩
  intro c hMem
  exact Bool.and_eq_true_iff.1 (List.all_eq_true.1 hBytes c hMem)

theorem text_bytes :
    ∀ c ∈ nameText word versionText suffix, isProfileByte c = true := by
  intro c hc
  unfold nameText at hc
  rcases List.mem_append.1 hc with hc | hc
  · exact (hPieces.word_bytes.2 c hc).2
  · rcases List.mem_append.1 hc with hc | hc
    · exact (versionByte_plain (hPieces.version.bytes c hc)).1
    · cases hSuffix : suffix with
      | none =>
          rw [hSuffix] at hc
          cases hc
      | some text =>
          rw [hSuffix] at hc
          rcases List.mem_cons.1 hc with rfl | hc
          · decide
          · exact hPieces.bytes text hSuffix c hc

theorem text_lower :
    toAsciiLowercase (nameText word versionText suffix) =
      nameText word versionText suffix := by
  have hSuffix : toAsciiLowercase (suffixText suffix) =
      suffixText suffix := by
    cases hSome : suffix with
    | none => rfl
    | some text =>
        have hText := hPieces.lower text hSome
        show Char.toLower '-' :: toAsciiLowercase text = '-' :: text
        rw [hText]
        rfl
  unfold nameText
  rw [lowercase_append, lowercase_append, hPieces.word_bytes.1,
    lowercase_versionText hPieces.version.bytes, hSuffix]

/- Behind the identifier stands nothing, a digit or a dash. -/
theorem rest_head :
    ∀ c rest, versionText ++ suffixText suffix = c :: rest →
      isNameByte c = false := by
  intro c rest hRest
  unfold isNameByte
  cases hVersion : versionText with
  | nil =>
      rw [hVersion, List.nil_append] at hRest
      cases hSuffix : suffix with
      | none =>
          rw [hSuffix] at hRest
          cases hRest
      | some text =>
          rw [hSuffix] at hRest
          cases hRest
          decide
  | cons d digits =>
      rw [hVersion] at hRest
      cases hRest
      have hDigit := hPieces.version.head c digits hVersion
      have hNot := digit_not_nameByte hDigit
      rw [hNot.1]
      simpa using hNot.2

theorem takeWhile_name :
    (nameText word versionText suffix).takeWhile isNameByte = word ∧
      (nameText word versionText suffix).dropWhile isNameByte =
        versionText ++ suffixText suffix := by
  have hWord : ∀ c ∈ word, isNameByte c = true :=
    fun c hc => (hPieces.word_bytes.2 c hc).1
  unfold nameText
  rw [List.takeWhile_append_of_pos hWord, List.dropWhile_append_of_pos hWord]
  cases hRest : versionText ++ suffixText suffix with
  | nil => simp
  | cons c rest =>
      have hHead := hPieces.rest_head c rest hRest
      rw [List.takeWhile_cons_of_neg (by simp [hHead]),
        List.dropWhile_cons_of_neg (by simp [hHead]), List.append_nil]
      exact ⟨rfl, rfl⟩

theorem takeWhile_version :
    (versionText ++ suffixText suffix).takeWhile (· != '-') =
        versionText ∧
      (versionText ++ suffixText suffix).dropWhile (· != '-') =
        suffixText suffix := by
  have hVersion : ∀ c ∈ versionText, (c != '-') = true := by
    intro c hc
    have hPlain := versionByte_plain (hPieces.version.bytes c hc)
    simpa using hPlain.2.1
  rw [List.takeWhile_append_of_pos hVersion,
    List.dropWhile_append_of_pos hVersion]
  cases suffix with
  | none =>
      unfold suffixText
      simp
  | some text =>
      unfold suffixText
      simp

theorem dash_mem :
    (if '-' ∈ versionText ++ suffixText suffix then
      some ((versionText ++ suffixText suffix).dropWhile (· != '-')).tail
    else none) = suffix := by
  rw [hPieces.takeWhile_version.2]
  cases hSuffix : suffix with
  | none =>
      rw [if_neg]
      intro hDash
      unfold suffixText at hDash
      rw [List.append_nil] at hDash
      exact (versionByte_plain (hPieces.version.bytes _ hDash)).2.1 rfl
  | some text =>
      rw [if_pos]
      · rfl
      · apply List.mem_append_right
        exact List.mem_cons_self

theorem not_portable :
    portableTail (nameText word versionText suffix) = none := by
  have hHead : ∀ head tail, head ∈ ["portable".toList, "netportable".toList] →
      nameText word versionText suffix ≠ head ++ tail := by
    intro head tail hHead hText
    have hBytes : ∀ head ∈ ["portable".toList, "netportable".toList],
        ∀ c ∈ head, isNameByte c = true := by
      have hAll : ∀ head ∈ ["portable".toList, "netportable".toList],
          head.all isNameByte = true := by
        decide
      exact fun head hMem => List.all_eq_true.1 (hAll head hMem)
    have hWord := hPieces.takeWhile_name.1
    rw [hText, List.takeWhile_append_of_pos (hBytes head hHead)] at hWord
    have hPrefix : head.isPrefixOf word = true := by
      rw [List.isPrefixOf_iff_prefix, ← hWord]
      exact List.prefix_append head _
    have hNone : ∀ word ∈ printedWords,
        ∀ head ∈ ["portable".toList, "netportable".toList],
          head.isPrefixOf word = false := by
      decide
    rw [hNone word hPieces.word head hHead] at hPrefix
    cases hPrefix
  have hNone : ∀ head, head ∈ ["portable".toList, "netportable".toList] →
      afterHead head (nameText word versionText suffix) = none := by
    intro head hMem
    rw [Option.eq_none_iff_forall_ne_some]
    intro tail hTail
    exact hHead head tail hMem (afterHead_iff.1 hTail)
  unfold portableTail
  rw [hNone _ (by simp), hNone _ (by simp)]
  rfl

/- A printed name goes to the parser of plain names. -/
theorem parseFolder_eq :
    parseFolder (nameText word versionText suffix) =
      .ok (parseShortPlain (nameText word versionText suffix)
        (nameText word versionText suffix)) := by
  have hNotEmpty : nameText word versionText suffix ≠ [] := by
    intro hNil
    have hWord := hPieces.takeWhile_name.1
    rw [hNil] at hWord
    have hAll : ∀ word ∈ printedWords, word ≠ [] := by
      decide
    exact hAll word hPieces.word hWord.symm
  unfold parseFolder parseShortText
  rw [if_neg, parseShort, if_neg, hPieces.text_lower, hPieces.not_portable]
  · rintro (hNil | hBlank)
    · exact hNotEmpty hNil
    · rcases List.any_eq_true.1 hBlank with ⟨c, hc, hSpace⟩
      rw [(profileByte_plain (hPieces.text_bytes c hc)).1] at hSpace
      cases hSpace
  · intro hComma
    exact (profileByte_plain (hPieces.text_bytes _ hComma)).2 rfl

/- The plain parser, on the three pieces. -/
theorem parseShortPlain_eq :
    parseShortPlain (nameText word versionText suffix)
        (nameText word versionText suffix) =
      match shortIdentifier word versionText suffix with
      | none => unsupported
      | some (framework, version) =>
          match suffix with
          | none => ⟨framework, version, none, none⟩
          | some text =>
              if framework = NET_CORE_APP ∧ 5 ≤ version.getD 0 0 then
                match shortPlatform text text with
                | some platform => ⟨framework, version, some platform, none⟩
                | none => unsupported
              else if text = [] ∨ text.all isProfileByte = false then
                unsupported
              else
                ⟨framework, version, none, canonicalProfile text⟩ := by
  have hName := hPieces.takeWhile_name
  unfold isNameByte at hName
  have hPlain : ∀ word ∈ printedWords, word ≠ ".net".toList := by
    decide
  have hVersion := hPieces.takeWhile_version.1
  have hDash := hPieces.dash_mem
  cases suffix with
  | none =>
      unfold parseShortPlain
      simp only
      rw [hName.1, hName.2, if_neg (hPlain word hPieces.word), hVersion,
        hDash]
      all_goals cases shortIdentifier word versionText none <;> rfl
  | some text =>
      have hSplit : nameText word versionText (some text) =
          (word ++ (versionText ++ ['-'])) ++ text := by
        unfold nameText suffixText
        simp
      have hDrop : (nameText word versionText (some text)).drop
          ((nameText word versionText (some text)).length - text.length) =
            text := by
        rw [hSplit, List.length_append, Nat.add_sub_cancel, List.drop_left]
      unfold parseShortPlain
      simp only
      rw [hName.1, hName.2, if_neg (hPlain word hPieces.word), hVersion,
        hDash]
      simp only [hDrop]
      all_goals
        cases shortIdentifier word versionText (some text) <;> rfl

end

end NamePieces

theorem shortIdentifier_net
    (hVersion : VersionText versionText version)
    (suffix : Option (List Char)) :
    shortIdentifier "net".toList versionText suffix =
      some (if 5 ≤ version.getD 0 0 then NET_CORE_APP else NET_FRAMEWORK,
        version) := by
  have hNet : ("net".toList == []) = false := by
    decide
  unfold shortIdentifier
  simp only [hNet, Bool.false_and, beq_self_eq_true, Bool.true_or,
    hVersion.parses, Option.map_some]
  simp only [Bool.false_eq_true, if_false, if_true]
  split <;> rfl

theorem shortIdentifier_word
    (hVersion : VersionText versionText version)
    (hWord : (word, identifier) ∈
      [("netcoreapp".toList, NET_CORE_APP),
        ("netstandard".toList, NET_STANDARD)])
    (suffix : Option (List Char)) :
    shortIdentifier word versionText suffix =
      some (identifier, version) := by
  have hTable : ∀ entry ∈ [("netcoreapp".toList, NET_CORE_APP),
        ("netstandard".toList, NET_STANDARD)],
      (entry.1 == []) = false ∧ (entry.1 == "net".toList) = false ∧
      ((SHORT_ALIASES.find? fun pair => pair.1 == entry.1).map
        Prod.snd) = some entry.2 ∧
      [ANY, AGNOSTIC, UNSUPPORTED].contains entry.2 = false ∧
      defaultVersion entry.2 = [0, 0, 0, 0] := by
    decide
  rcases hTable _ hWord with ⟨hEmpty, hNet, hFind, hSpecial, hDefault⟩
  have hAlias : ∀ p : List Char × List Char → Bool,
      (∀ pair, p pair = (pair.1 == word)) →
      (SHORT_ALIASES.find? p).map Prod.snd = some identifier := by
    intro p hSame
    rw [funext hSame]
    exact hFind
  unfold shortIdentifier
  rw [hAlias _ fun _ => rfl]
  simp only [hEmpty, hNet, Bool.false_and, Bool.or_false,
    Bool.false_eq_true, if_false, Option.some_or, Option.bind_some,
    hSpecial, hVersion.parses, Option.map_some]
  split
  · rename_i hBare
    rw [Bool.and_eq_true, beq_iff_eq] at hBare
    have hParses := hVersion.parses
    rw [hBare.1] at hParses
    cases hParses
    rw [hDefault]
  · rfl

/- The three families, by their exact identifiers. -/
theorem identifier_exact
    (hMem : framework ∈ shortIdentifiers)
    (hFamily : identifier ∈ [NET_FRAMEWORK, NET_CORE_APP, NET_STANDARD])
    (hSame : eqIgnoreAsciiCase framework identifier = true) :
    framework = identifier := by
  have hTable : ∀ framework ∈ shortIdentifiers,
      ∀ identifier ∈ [NET_FRAMEWORK, NET_CORE_APP, NET_STANDARD],
        eqIgnoreAsciiCase framework identifier = true →
          framework = identifier := by
    decide
  exact hTable framework hMem identifier hFamily hSame

/- What the name of a framework must be, for the framework to come back. -/
def Returns
    (f : NuGetFramework) :
    Prop :=
  ∃ name, folderName f = some name ∧
    ∃ again, parseFolder name = .ok again ∧ again.eq f = true

/- A framework that shows its profile behind a dash. -/
theorem returns_of_profile
    (word versionText : List Char)
    (hName : folderName ⟨framework, version, none, profile⟩ =
      some (nameText word versionText (profile.map profileShort)))
    (hWord : word ∈ printedWords)
    (hVersion : VersionText versionText version)
    (hShort : ∀ suffix, shortIdentifier word versionText suffix =
      some (framework, version))
    (hModern : ¬ IsModern framework version)
    (hSuffix : SuffixForm framework version none profile) :
    Returns ⟨framework, version, none, profile⟩ := by
  refine ⟨_, hName, ?_⟩
  cases hProfile : profile with
  | none =>
      have hPieces : NamePieces word versionText none version :=
        ⟨hWord, hVersion, by simp, by simp⟩
      refine ⟨⟨framework, version, none, none⟩, ?_, ?_⟩
      · rw [Option.map_none, hPieces.parseFolder_eq,
          hPieces.parseShortPlain_eq, hShort]
      · unfold NuGetFramework.eq
        simp [eqIgnoreAsciiCase_iff, eqPlatform, eqOption]
  | some shown =>
      cases hSuffix with
      | none => cases hProfile
      | @profile text _ hText =>
          rcases canonicalProfile_profileShort hText hProfile with
            ⟨hBytes, hLower, again, hAgain, hSame⟩
          have hPieces : NamePieces word versionText
              (some (profileShort shown)) version := by
            refine ⟨hWord, hVersion, ?_, ?_⟩
            · intro shownText hSome
              cases hSome
              exact hBytes.bytes
            · intro shownText hSome
              cases hSome
              exact hLower
          have hAll : (profileShort shown).all isProfileByte = true :=
            List.all_eq_true.2 hBytes.bytes
          refine ⟨⟨framework, version, none, some again⟩, ?_, ?_⟩
          · rw [Option.map_some, hPieces.parseFolder_eq,
              hPieces.parseShortPlain_eq, hShort]
            unfold IsModern at hModern
            simp only
            rw [if_neg hModern, if_neg, hAgain]
            rintro (hNil | hBad)
            · exact hBytes.nonempty hNil
            · rw [hAll] at hBad
              cases hBad
          · unfold NuGetFramework.eq
            simp [eqIgnoreAsciiCase_iff, eqPlatform, eqOption,
              eqIgnoreAsciiCase_iff.1 hSame]

theorem folderName_plain
    (hPortable : f.hasId PORTABLE = false) :
    folderName f = (baseName f).map (· ++ shownProfile f) := by
  unfold folderName
  rw [shortFolderName, hPortable]
  rfl

theorem shownProfile_plain
    (hModern : ((⟨framework, version, platform, profile⟩ :
      NuGetFramework).hasId NET_CORE_APP &&
        decide (5 ≤ version.getD 0 0)) = false) :
    shownProfile ⟨framework, version, platform, profile⟩ =
      suffixText (profile.map profileShort) := by
  unfold shownProfile major
  rw [hModern]
  cases profile <;> rfl

theorem returns_netFramework
    (hVersion : IsVersion version)
    (hMajor : version.getD 0 0 < 5)
    (hSuffix : SuffixForm NET_FRAMEWORK version none profile) :
    Returns ⟨NET_FRAMEWORK, version, none, profile⟩ := by
  have hModern : ¬ IsModern NET_FRAMEWORK version := fun hModern =>
    absurd hModern.1 (by decide)
  apply returns_of_profile "net".toList (tail2 version) _ (by decide)
    (versionText_tail2 hVersion) _ hModern hSuffix
  · rw [folderName_plain rfl, shownProfile_plain rfl]
    rfl
  · intro suffix
    rw [shortIdentifier_net (versionText_tail2 hVersion),
      if_neg (Nat.not_le_of_lt hMajor)]

theorem returns_netStandard
    (hVersion : IsVersion version)
    (hSuffix : SuffixForm NET_STANDARD version none profile) :
    Returns ⟨NET_STANDARD, version, none, profile⟩ := by
  have hModern : ¬ IsModern NET_STANDARD version := fun hModern =>
    absurd hModern.1 (by decide)
  apply returns_of_profile "netstandard".toList (dottedTail version) _ (by decide)
    (versionText_dottedTail hVersion) _ hModern hSuffix
  · rw [folderName_plain rfl, shownProfile_plain rfl]
    rfl
  · exact shortIdentifier_word (versionText_dottedTail hVersion) (by simp)

theorem coreApp_baseName
    {profile : Option (List Char)} :
    baseName ⟨NET_CORE_APP, version, platform, profile⟩ =
      some (coreAppName ⟨NET_CORE_APP, version, platform, profile⟩) :=
  rfl

theorem returns_netCoreApp
    (hVersion : IsVersion version)
    (hMajor : version.getD 0 0 < 5)
    (hSuffix : SuffixForm NET_CORE_APP version none profile) :
    Returns ⟨NET_CORE_APP, version, none, profile⟩ := by
  have hModern : ¬ IsModern NET_CORE_APP version := fun hModern =>
    absurd hModern.2 (Nat.not_le_of_lt hMajor)
  apply returns_of_profile "netcoreapp".toList (dottedTail version) _ (by decide)
    (versionText_dottedTail hVersion) _ hModern hSuffix
  · rw [folderName_plain rfl, shownProfile_plain, coreApp_baseName]
    · unfold coreAppName major
      rw [if_neg (Nat.not_le_of_lt hMajor)]
      rfl
    · rw [Bool.and_eq_false_iff]
      exact .inr (decide_eq_false (Nat.not_le_of_lt hMajor))
  · exact shortIdentifier_word (versionText_dottedTail hVersion) (by simp)

------------------------------------------------------------
-- Platforms
------------------------------------------------------------

/- A platform that is read as it is printed. -/
theorem shortPlatform_printed
    {name : List Char}
    (hName : name ≠ [])
    (hLetters : ∀ c ∈ name, isAsciiAlphabetic c = true)
    (hNumber : IsVersion number) :
    shortPlatform (toAsciiLowercase name ++ dottedTail number)
        (toAsciiLowercase name ++ dottedTail number) =
      some (toAsciiLowercase name, number) := by
  have hLower : ∀ c ∈ toAsciiLowercase name, isAsciiAlphabetic c = true := by
    intro c hc
    rcases List.mem_map.1 hc with ⟨d, hd, rfl⟩
    rw [isAsciiAlphabetic_toLower]
    exact hLetters d hd
  have hText := versionText_dottedTail hNumber
  have hHead : ∀ c rest, dottedTail number = c :: rest →
      isAsciiAlphabetic c = false := fun c rest hRest =>
    (digit_not_nameByte (hText.head c rest hRest)).1
  have hTake : (toAsciiLowercase name ++ dottedTail number).takeWhile
      isAsciiAlphabetic = toAsciiLowercase name := by
    rw [List.takeWhile_append_of_pos hLower]
    cases hRest : dottedTail number with
    | nil => simp
    | cons c rest => simp [hHead c rest hRest]
  have hDrop : (toAsciiLowercase name ++ dottedTail number).dropWhile
      isAsciiAlphabetic = dottedTail number := by
    rw [List.dropWhile_append_of_pos hLower]
    cases hRest : dottedTail number with
    | nil => rfl
    | cons c rest => simp [hHead c rest hRest]
  unfold shortPlatform
  simp only [hTake, hDrop, List.take_left]
  have hNonempty : toAsciiLowercase name ≠ [] := fun hNil =>
    hName (List.map_eq_nil_iff.1 hNil)
  rw [if_neg hNonempty]
  by_cases hZero : isZero number = true
  · have hNil : dottedTail number = [] := by
      unfold dottedTail
      rw [if_pos hZero]
    rw [if_pos hNil, beq_iff_eq.1 hZero]
  · have hTail : dottedTail number = dotted number 2 := by
      unfold dottedTail
      rw [if_neg hZero]
    rcases dotted_two hNumber with ⟨digit, rest, hDotted, hDigit, _⟩
    rw [hTail, if_neg, if_pos, parseDottedVersion_dotted hNumber (by decide)]
    · rfl
    · rw [hDotted]
      exact hDigit
    · rw [hDotted]
      exact List.cons_ne_nil digit rest

/- A modern framework shows its platform. -/
theorem modern_name
    (hMajor : 5 ≤ version.getD 0 0) :
    folderName ⟨NET_CORE_APP, version, platform, profile⟩ =
      some (nameText "net".toList (dotted version 2)
        (platform.map fun (name, number) =>
          toAsciiLowercase name ++ dottedTail number)) := by
  have hShown : shownProfile ⟨NET_CORE_APP, version, platform, profile⟩ =
      [] := by
    have hModern : ((⟨NET_CORE_APP, version, platform, profile⟩ :
        NuGetFramework).hasId NET_CORE_APP &&
          decide (5 ≤ version.getD 0 0)) = true := by
      rw [decide_eq_true hMajor]
      rfl
    unfold shownProfile major
    rw [hModern]
    rfl
  rw [folderName_plain rfl, hShown, coreApp_baseName, Option.map_some,
    List.append_nil]
  unfold coreAppName major
  rw [if_pos hMajor]
  cases platform with
  | none => simp [nameText, suffixText]
  | some platform => simp [nameText, suffixText]

theorem returns_modern
    (hVersion : IsVersion version)
    (hMajor : 5 ≤ version.getD 0 0)
    (hSuffix : SuffixForm NET_CORE_APP version platform profile) :
    Returns ⟨NET_CORE_APP, version, platform, profile⟩ := by
  have hText := versionText_dotted hVersion
  refine ⟨_, modern_name hMajor, ?_⟩
  cases hSuffix with
  | none =>
      have hPieces : NamePieces "net".toList (dotted version 2) none
          version :=
        ⟨by decide, hText, by simp, by simp⟩
      refine ⟨⟨NET_CORE_APP, version, none, none⟩, ?_, ?_⟩
      · rw [Option.map_none, hPieces.parseFolder_eq,
          hPieces.parseShortPlain_eq, shortIdentifier_net hText,
          if_pos hMajor]
      · unfold NuGetFramework.eq
        simp [eqIgnoreAsciiCase_iff, eqPlatform, eqOption]
  | @platform name number _ hName hLetters hNumber =>
      have hTail := versionText_dottedTail hNumber
      have hPieces : NamePieces "net".toList (dotted version 2)
          (some (toAsciiLowercase name ++ dottedTail number)) version := by
        refine ⟨by decide, hText, ?_, ?_⟩
        · intro text hSome c hc
          cases hSome
          rcases List.mem_append.1 hc with hc | hc
          · rcases List.mem_map.1 hc with ⟨d, hd, rfl⟩
            rw [isProfileByte_toLower]
            unfold isProfileByte
            rw [hLetters d hd]
            rfl
          · exact (versionByte_plain (hTail.bytes c hc)).1
        · intro text hSome
          cases hSome
          rw [lowercase_append, lowercase_lowercase,
            lowercase_versionText hTail.bytes]
      refine ⟨⟨NET_CORE_APP, version,
        some (toAsciiLowercase name, number), none⟩, ?_, ?_⟩
      · rw [Option.map_some, hPieces.parseFolder_eq,
          hPieces.parseShortPlain_eq, shortIdentifier_net hText,
          if_pos hMajor]
        simp only
        rw [if_pos ⟨trivial, hMajor⟩,
          shortPlatform_printed hName hLetters hNumber]
      · unfold NuGetFramework.eq
        simp [eqIgnoreAsciiCase_iff, eqPlatform, eqOption,
          lowercase_lowercase]
  | profile hNot _ => exact absurd ⟨rfl, hMajor⟩ hNot

/- The frameworks the name is claimed for. -/
def InFamily
    (f : NuGetFramework) :
    Prop :=
  (f.hasId NET_FRAMEWORK = true ∧ f.major < 5) ∨
    f.hasId NET_CORE_APP = true ∨ f.hasId NET_STANDARD = true

theorem returns_of_form
    (hForm : FolderForm f)
    (hFamily : InFamily f) :
    Returns f := by
  rcases f with ⟨framework, version, platform, profile⟩
  rcases hForm with ⟨hIdentifier, hVersion, hSuffix⟩
  have hPlain : framework ≠ NET_CORE_APP → platform = none := by
    intro hNot
    cases hSuffix with
    | none => rfl
    | platform hModern _ _ _ => exact absurd hModern.1 hNot
    | profile _ _ => rfl
  rcases hFamily with ⟨hSame, hMajor⟩ | hSame | hSame
  · have hExact := identifier_exact hIdentifier (by simp) hSame
    dsimp only at hExact
    subst hExact
    have hNone := hPlain (by decide)
    subst hNone
    exact returns_netFramework hVersion hMajor hSuffix
  · have hExact := identifier_exact hIdentifier (by simp) hSame
    dsimp only at hExact
    subst hExact
    by_cases hMajor : 5 ≤ version.getD 0 0
    · exact returns_modern hVersion hMajor hSuffix
    · have hNone : platform = none := by
        cases hSuffix with
        | none => rfl
        | platform hModern _ _ _ => exact absurd hModern.2 hMajor
        | profile _ _ => rfl
      subst hNone
      exact returns_netCoreApp hVersion (Nat.lt_of_not_le hMajor) hSuffix
  · have hExact := identifier_exact hIdentifier (by simp) hSame
    dsimp only at hExact
    subst hExact
    have hNone := hPlain (by decide)
    subst hNone
    exact returns_netStandard hVersion hSuffix

/- Every framework of the three families that a folder name is parsed to has
   a short folder name, and that name is parsed to an equal framework. -/
theorem folder_name_round_trip
    (s : List Char)
    (f : NuGetFramework)
    (hParse : parseFolder s = .ok f)
    (hFamily :
      (f.hasId NET_FRAMEWORK = true ∧ f.major < 5) ∨
        f.hasId NET_CORE_APP = true ∨ f.hasId NET_STANDARD = true) :
    ∃ name, folderName f = some name ∧
      ∃ again, parseFolder name = .ok again ∧ again.eq f = true := by
  rcases parseFolder_form hParse with rfl | hPortable | hForm
  · exact absurd hFamily (by decide)
  · rcases f with ⟨framework, version, platform, profile⟩
    dsimp only at hPortable
    subst hPortable
    rcases hFamily with ⟨hSame, _⟩ | hSame | hSame <;> cases hSame
  · exact returns_of_form hForm hFamily

theorem folder_name_round_trip_windows :
    ∃ name, folderName ⟨NET_CORE_APP, [5, 0, 0, 0],
        some ("Windows".toList, [10, 0, 19041, 0]), none⟩ = some name ∧
      ∃ again, parseFolder name = .ok again ∧
        again.eq ⟨NET_CORE_APP, [5, 0, 0, 0],
          some ("Windows".toList, [10, 0, 19041, 0]), none⟩ = true :=
  folder_name_round_trip "NET5-Windows10.0.19041".toList _
    (by decide) (by decide)

end NuGet

end Borzoi
