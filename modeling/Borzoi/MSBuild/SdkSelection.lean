import Borzoi.MSBuild.SdkVersion
import Borzoi.Program.Choice

/-
  Selection of an installed SDK.

  A policy admits candidates and has a rule that chooses between two of
  them.  The latest policies choose the higher; the others choose the
  higher of one feature band and the lower of two, which is the greater
  in the order that ranks low bands first.

  Main declarations:
    * `selectSdkVersion`
    * `betterMatch`
    * `cascade_greatest`
    * `sdk_version_order_and_selection`
-/

namespace Borzoi

namespace MSBuild

open Std
open Choice

inductive RollForward
  | Disable
  | Patch
  | Feature
  | Minor
  | Major
  | LatestPatch
  | LatestFeature
  | LatestMinor
  | LatestMajor
  deriving DecidableEq, Repr

structure VersionSpec where
  version : Option SdkVersion
  rollForward : RollForward
  allowPrerelease : Bool
  deriving DecidableEq, Repr

namespace VersionSpec

/- `with_version`. -/
def withVersion
    (version : SdkVersion)
    (rollForward : RollForward)
    (allowPrerelease : Bool) :
    VersionSpec :=
  { version := some version
    rollForward := rollForward
    allowPrerelease := allowPrerelease || version.isPrerelease }

/- `any_version`. -/
def anyVersion
    (allowPrerelease : Bool) :
    VersionSpec :=
  { version := none
    rollForward := .LatestMajor
    allowPrerelease := allowPrerelease }

end VersionSpec

/- `same_band`. -/
def sameBand
    (a b : SdkVersion) :
    Bool :=
  a.major == b.major && a.minor == b.minor &&
    a.featureBand == b.featureBand

/- `>=` of versions. -/
def atLeast
    (a b : SdkVersion) :
    Bool :=
  (a.cmp b).isGE

def admits
    (candidate : SdkVersion)
    (spec : VersionSpec) :
    Bool :=
  if candidate.isPrerelease && !spec.allowPrerelease then
    false
  else
    match spec.version with
    | none => spec.rollForward == .LatestMajor
    | some pin =>
        match spec.rollForward with
        | .Disable => candidate == pin
        | .Patch => sameBand candidate pin && atLeast candidate pin
        | .Feature =>
            candidate.major == pin.major && candidate.minor == pin.minor &&
              atLeast candidate pin
        | .Minor => candidate.major == pin.major && atLeast candidate pin
        | .Major => atLeast candidate pin
        | .LatestPatch => sameBand candidate pin && atLeast candidate pin
        | .LatestFeature =>
            candidate.major == pin.major && candidate.minor == pin.minor &&
              atLeast candidate pin
        | .LatestMinor =>
            candidate.major == pin.major && atLeast candidate pin
        | .LatestMajor => atLeast candidate pin

def higher
    (a b : SdkVersion) :
    SdkVersion :=
  if a.cmp b = .gt then a else b

/- `Iterator::max`. -/
def maxVersion
    (versions : List SdkVersion) :
    Option SdkVersion :=
  pick higher versions

/- `cascade_key`. -/
def cascadeKey
    (v : SdkVersion) :
    Nat × Nat × Nat :=
  (v.major, v.minor, v.featureBand)

def cmpKey :
    Nat × Nat × Nat → Nat × Nat × Nat → Ordering :=
  compareLex (compareOn (·.1))
    (compareLex (compareOn (·.2.1)) (compareOn (·.2.2)))

def lowerKey
    (a b : Nat × Nat × Nat) :
    Nat × Nat × Nat :=
  if cmpKey a b = .gt then b else a

def cascade
    (admitted : List SdkVersion) :
    Option SdkVersion :=
  match pick lowerKey (admitted.map cascadeKey) with
  | none => none
  | some minKey =>
      maxVersion (admitted.filter fun c => cascadeKey c == minKey)

/- `select_sdk_version`. -/
def selectSdkVersion
    (candidates : List SdkVersion)
    (spec : Option VersionSpec) :
    Option SdkVersion :=
  match spec with
  | none => maxVersion candidates
  | some spec =>
      let admitted := candidates.filter fun c => admits c spec
      if admitted = [] then
        none
      else
        match spec.version with
        | none => maxVersion admitted
        | some pin =>
            match spec.rollForward with
            | .Disable => admitted.find? (· == pin)
            | .LatestPatch | .LatestFeature | .LatestMinor
            | .LatestMajor => maxVersion admitted
            | .Patch =>
                match admitted.find? (· == pin) with
                | some exact => some exact
                | none => cascade admitted
            | .Feature | .Minor | .Major => cascade admitted

/- The better match of two: the higher of one band, the lower across
   bands. -/
def betterMatch
    (a b : SdkVersion) :
    SdkVersion :=
  if sameBand a b then
    higher a b
  else if a.cmp b = .gt then
    b
  else
    a

/- Whether a candidate is considered at all. -/
def admitted
    (spec : Option VersionSpec)
    (v : SdkVersion) :
    Prop :=
  ∀ s ∈ spec, admits v s = true

/- The rule of a policy. -/
def ruleOf
    (spec : Option VersionSpec) :
    SdkVersion → SdkVersion → SdkVersion :=
  match spec with
  | none => higher
  | some spec =>
      match spec.version, spec.rollForward with
      | none, _ => higher
      | some _, .LatestPatch => higher
      | some _, .LatestFeature => higher
      | some _, .LatestMinor => higher
      | some _, .LatestMajor => higher
      | some _, _ => betterMatch

/- The version a policy takes before any other. -/
def exactPin
    (spec : Option VersionSpec) :
    Option SdkVersion :=
  match spec with
  | none => none
  | some spec =>
      match spec.rollForward with
      | .Disable => spec.version
      | .Patch => spec.version
      | _ => none

/- A version that some directory name stands for. -/
def Parsed
    (v : SdkVersion) :
    Prop :=
  ∃ name, SdkVersion.parse name = some v

variable {a b v w : SdkVersion} {l order candidates : List SdkVersion}
variable {spec : Option VersionSpec}

theorem eq_of_cmp_parsed
    (hv : Parsed v)
    (hw : Parsed w)
    (hEq : v.cmp w = .eq) :
    v = w := by
  rcases hv with ⟨name, hName⟩
  rcases hw with ⟨name', hName'⟩
  exact eq_of_cmp (parse_wellFormed hName) (parse_wellFormed hName') hEq

theorem higher_chooses :
    Chooses SdkVersion.cmp higher where
  cases := by
    intro a b
    unfold higher
    split
    · exact Or.inl rfl
    · exact Or.inr rfl
  left := by
    intro a b
    unfold higher
    split
    · have hSelf : a.cmp a = .eq := ReflCmp.compare_self
      rw [hSelf]
      rfl
    · rename_i hGt
      cases hCmp : a.cmp b with
      | lt => rfl
      | eq => rfl
      | gt => exact absurd hCmp hGt
  right := by
    intro a b
    unfold higher
    split
    · rename_i hGt
      have hSwap : b.cmp a = (a.cmp b).swap := OrientedCmp.eq_swap
      rw [hSwap, hGt]
      rfl
    · have hSelf : b.cmp b = .eq := ReflCmp.compare_self
      rw [hSelf]
      rfl

instance : TransCmp cmpKey :=
  inferInstanceAs (TransCmp (compareLex _ _))

theorem eq_of_cmpKey
    {x y : Nat × Nat × Nat}
    (hEq : cmpKey x y = .eq) :
    x = y := by
  unfold cmpKey compareLex compareOn at hEq
  rw [Ordering.then_eq_eq, Ordering.then_eq_eq, Nat.compare_eq_eq,
    Nat.compare_eq_eq, Nat.compare_eq_eq] at hEq
  exact Prod.ext hEq.1 (Prod.ext hEq.2.1 hEq.2.2)

theorem sameBand_iff :
    sameBand a b = true ↔ cascadeKey a = cascadeKey b := by
  unfold sameBand cascadeKey
  simp only [Bool.and_eq_true, beq_iff_eq, Prod.mk.injEq, and_assoc]

/- The first three numbers decide before the rest. -/
theorem cmp_firstThree
    (a b : SdkVersion) :
    ∃ rest, a.cmp b = (cmpComponent a.numeric b.numeric 0).then
      ((cmpComponent a.numeric b.numeric 1).then
        ((cmpComponent a.numeric b.numeric 2).then rest)) := by
  have hNumeric := cmpNumericUpTo_add (m := 3)
    (Nat.le_max_left a.numeric.length b.numeric.length)
    (Nat.le_max_right a.numeric.length b.numeric.length)
  rw [Nat.add_comm, cmpNumericUpTo, List.range_add, List.map_append,
    List.foldr_append] at hNumeric
  have hThree : List.range 3 = [0, 1, 2] := rfl
  rw [hThree] at hNumeric
  generalize ((List.range (max a.numeric.length
    b.numeric.length)).map (3 + ·)).map
      (cmpComponent a.numeric b.numeric) = beyond at hNumeric
  refine ⟨(beyond.foldr Ordering.then .eq).then
    (cmpSuffix a.prerelease b.prerelease), ?_⟩
  rw [SdkVersion.cmp, cmpNumeric, ← hNumeric]
  simp only [List.map_cons, List.map_nil, List.foldr_cons, List.foldr_nil,
    Ordering.then_assoc]

/- A lower band is a lower version. -/
theorem cmp_of_cmpKey
    (hLt : cmpKey (cascadeKey a) (cascadeKey b) = .lt) :
    a.cmp b = .lt := by
  rcases cmp_firstThree a b with ⟨rest, hCmp⟩
  rw [hCmp]
  unfold cmpKey compareLex compareOn at hLt
  unfold cmpComponent
  have hMajor : compare (cascadeKey a).1 (cascadeKey b).1 =
      compare (a.numeric.getD 0 0) (b.numeric.getD 0 0) := rfl
  have hMinor : compare (cascadeKey a).2.1 (cascadeKey b).2.1 =
      compare (a.numeric.getD 1 0) (b.numeric.getD 1 0) := rfl
  have hBand : compare (cascadeKey a).2.2 (cascadeKey b).2.2 =
      compare (a.numeric.getD 2 0 / 100) (b.numeric.getD 2 0 / 100) := rfl
  rw [hMajor, hMinor, hBand] at hLt
  rw [Ordering.then_eq_lt] at hLt ⊢
  rcases hLt with hFirst | ⟨hFirst, hLt⟩
  · exact Or.inl hFirst
  · refine Or.inr ⟨hFirst, ?_⟩
    rw [Ordering.then_eq_lt] at hLt ⊢
    rcases hLt with hSecond | ⟨hSecond, hLt⟩
    · exact Or.inl hSecond
    · refine Or.inr ⟨hSecond, ?_⟩
      rw [Nat.compare_eq_lt] at hLt
      rw [Ordering.then_eq_lt, Nat.compare_eq_lt]
      exact Or.inl (by omega)

/- Low bands rank first, and high versions within a band. -/
def cmpBetter
    (a b : SdkVersion) :
    Ordering :=
  (cmpKey (cascadeKey b) (cascadeKey a)).then (a.cmp b)

def bandCmp
    (a b : SdkVersion) :
    Ordering :=
  cmpKey (cascadeKey b) (cascadeKey a)

instance : TransCmp bandCmp where
  eq_swap := by
    unfold bandCmp
    exact OrientedCmp.eq_swap
  isLE_trans := by
    intro a b c hab hbc
    unfold bandCmp at hab hbc ⊢
    exact TransCmp.isLE_trans hbc hab

instance : TransCmp cmpBetter :=
  inferInstanceAs (TransCmp (compareLex bandCmp SdkVersion.cmp))

theorem cmpBetter_of_sameBand
    (hBand : cascadeKey a = cascadeKey b) :
    cmpBetter a b = a.cmp b := by
  have hSelf : cmpKey (cascadeKey b) (cascadeKey b) = .eq :=
    ReflCmp.compare_self
  rw [cmpBetter, hBand, hSelf]
  rfl

theorem cmpBetter_self :
    cmpBetter a a = .eq := ReflCmp.compare_self

/- The better match is the greater in that order. -/
theorem betterMatch_chooses :
    Chooses cmpBetter betterMatch := by
  have hBands : ∀ a b, sameBand a b = false →
      (a.cmp b = .gt ∧ cmpBetter a b = .lt) ∨
        (a.cmp b ≠ .gt ∧ cmpBetter b a = .lt) := by
    intro a b hBand
    cases hKey : cmpKey (cascadeKey a) (cascadeKey b) with
    | lt =>
        refine Or.inr ⟨?_, ?_⟩
        · rw [cmp_of_cmpKey hKey]
          nofun
        · rw [cmpBetter, hKey]
          rfl
    | eq =>
        rw [sameBand_iff.2 (eq_of_cmpKey hKey)] at hBand
        cases hBand
    | gt =>
        have hSwap : cmpKey (cascadeKey b) (cascadeKey a) =
            (cmpKey (cascadeKey a) (cascadeKey b)).swap :=
          OrientedCmp.eq_swap
        rw [hKey] at hSwap
        refine Or.inl ⟨?_, ?_⟩
        · have hCmp : a.cmp b = (b.cmp a).swap := OrientedCmp.eq_swap
          rw [hCmp, cmp_of_cmpKey hSwap]
          rfl
        · rw [cmpBetter, hSwap]
          rfl
  refine ⟨?_, ?_, ?_⟩
  · intro a b
    unfold betterMatch
    split
    · exact higher_chooses.cases a b
    · split
      · exact Or.inr rfl
      · exact Or.inl rfl
  · intro a b
    cases hBand : sameBand a b with
    | true =>
        have hKey := sameBand_iff.1 hBand
        rw [betterMatch, if_pos hBand]
        rcases higher_chooses.cases a b with hPick | hPick
        · rw [hPick, cmpBetter_self]
          rfl
        · have hLe := higher_chooses.left a b
          rw [hPick] at hLe ⊢
          rwa [cmpBetter_of_sameBand hKey]
    | false =>
        rw [betterMatch, hBand]
        rcases hBands a b hBand with ⟨hGt, hBetter⟩ | ⟨hLe, hBetter⟩
        · simp [hGt, hBetter]
        · simp [hLe, cmpBetter_self]
  · intro a b
    cases hBand : sameBand a b with
    | true =>
        have hKey := sameBand_iff.1 hBand
        rw [betterMatch, if_pos hBand]
        rcases higher_chooses.cases a b with hPick | hPick
        · have hLe := higher_chooses.right a b
          rw [hPick] at hLe ⊢
          rwa [cmpBetter_of_sameBand hKey.symm]
        · rw [hPick, cmpBetter_self]
          rfl
    | false =>
        rw [betterMatch, hBand]
        rcases hBands a b hBand with ⟨hGt, hBetter⟩ | ⟨hLe, hBetter⟩
        · simp [hGt, cmpBetter_self]
        · simp [hLe, hBetter]

theorem lowerKey_chooses :
    Chooses (fun x y => cmpKey y x) lowerKey where
  cases := by
    intro x y
    unfold lowerKey
    split
    · exact Or.inr rfl
    · exact Or.inl rfl
  left := by
    intro x y
    unfold lowerKey
    split
    · rename_i hGt
      have hSwap : cmpKey y x = (cmpKey x y).swap := OrientedCmp.eq_swap
      rw [hSwap, hGt]
      rfl
    · have hSelf : cmpKey x x = .eq := ReflCmp.compare_self
      rw [hSelf]
      rfl
  right := by
    intro x y
    unfold lowerKey
    split
    · have hSelf : cmpKey y y = .eq := ReflCmp.compare_self
      rw [hSelf]
      rfl
    · rename_i hGt
      cases hKey : cmpKey x y with
      | lt => rfl
      | eq => rfl
      | gt => exact absurd hKey hGt

instance : TransCmp (fun x y => cmpKey y x) where
  eq_swap := OrientedCmp.eq_swap
  isLE_trans := by
    intro x y z hxy hyz
    exact TransCmp.isLE_trans hyz hxy

/- The cascade picks from the lowest band its highest version. -/
theorem cascade_greatest
    (hCascade : cascade l = some v) :
    Greatest cmpBetter l v := by
  unfold cascade at hCascade
  split at hCascade
  · cases hCascade
  · rename_i minKey hMin
    have hKeys := lowerKey_chooses.greatest hMin
    have hHighest := higher_chooses.greatest hCascade
    rcases List.mem_filter.1 hHighest.1 with ⟨hMem, hKey⟩
    rw [beq_iff_eq] at hKey
    refine ⟨hMem, ?_⟩
    intro w hw
    have hLow : (cmpKey minKey (cascadeKey w)).isLE :=
      hKeys.2 (cascadeKey w) (List.mem_map.2 ⟨w, hw, rfl⟩)
    rw [cmpBetter, hKey]
    cases hCmp : cmpKey minKey (cascadeKey w) with
    | lt => rfl
    | eq =>
        have hSame := eq_of_cmpKey hCmp
        exact hHighest.2 w
          (List.mem_filter.2 ⟨hw, beq_iff_eq.2 hSame.symm⟩)
    | gt =>
        rw [hCmp] at hLow
        cases hLow

theorem cascade_isSome
    (hNe : l ≠ []) :
    ∃ v, cascade l = some v := by
  unfold cascade
  split
  · rename_i hNone
    exact absurd (List.map_eq_nil_iff.1 (pick_eq_none_iff.1 hNone)) hNe
  · rename_i minKey hMin
    have hMem := (lowerKey_chooses.greatest hMin).1
    rcases List.mem_map.1 hMem with ⟨v, hv, hKey⟩
    cases hMax : maxVersion (l.filter fun c => cascadeKey c == minKey) with
    | some w => exact ⟨w, rfl⟩
    | none =>
        have hNil := pick_eq_none_iff.1 hMax
        have hIn : v ∈ l.filter fun c => cascadeKey c == minKey :=
          List.mem_filter.2 ⟨hv, beq_iff_eq.2 hKey⟩
        rw [hNil] at hIn
        cases hIn

------------------------------------------------------------
-- Any order
------------------------------------------------------------

theorem nil_of_same
    (hSame : ∀ v, v ∈ order ↔ v ∈ l)
    (hNil : l = []) :
    order = [] := by
  apply List.eq_nil_iff_forall_not_mem.2
  intro v hv
  have hMem := (hSame v).1 hv
  rw [hNil] at hMem
  cases hMem

theorem maxVersion_eq
    (hParsed : ∀ v ∈ l, Parsed v)
    (hSame : ∀ v, v ∈ order ↔ v ∈ l) :
    maxVersion l = pick higher order := by
  cases hMax : maxVersion l with
  | none =>
      rw [nil_of_same hSame (pick_eq_none_iff.1 hMax)]
      rfl
  | some m =>
      refine (higher_chooses.pick_eq ?_ hSame
        (higher_chooses.greatest hMax)).symm
      intro x hx y hy hEq
      exact eq_of_cmp_parsed (hParsed x hx) (hParsed y hy) hEq

theorem cascade_eq
    (hParsed : ∀ v ∈ l, Parsed v)
    (hSame : ∀ v, v ∈ order ↔ v ∈ l) :
    cascade l = pick betterMatch order := by
  by_cases hNil : l = []
  · rw [nil_of_same hSame hNil, hNil]
    rfl
  · rcases cascade_isSome hNil with ⟨m, hm⟩
    rw [hm]
    refine (betterMatch_chooses.pick_eq ?_ hSame (cascade_greatest hm)).symm
    intro x hx y hy hEq
    rw [cmpBetter, Ordering.then_eq_eq] at hEq
    exact eq_of_cmp_parsed (hParsed x hx) (hParsed y hy) hEq.2

/- The first candidate that is the pin is the pin. -/
theorem find_pin
    (l : List SdkVersion)
    (pin : SdkVersion) :
    l.find? (· == pin) = if pin ∈ l then some pin else none := by
  cases hFind : l.find? (· == pin) with
  | none =>
      rw [if_neg]
      intro hMem
      exact absurd (beq_self_eq_true pin)
        (List.find?_eq_none.1 hFind pin hMem)
  | some v =>
      have hBeq := List.find?_some hFind
      have hv : v = pin := beq_iff_eq.1 hBeq
      have hMem := List.mem_of_find?_eq_some hFind
      rw [hv] at hMem ⊢
      rw [if_pos hMem]

/- The version selected from candidates folded in some order. -/
def selectFolded
    (order : List SdkVersion)
    (spec : Option VersionSpec) :
    Option SdkVersion :=
  match exactPin spec with
  | some pin =>
      if pin ∈ order then some pin else pick (ruleOf spec) order
  | none => pick (ruleOf spec) order

/- Under `Disable` only the pin is admitted. -/
theorem eq_pin_of_admits
    {s : VersionSpec}
    {pin : SdkVersion}
    (hPin : s.version = some pin)
    (hDisable : s.rollForward = .Disable)
    (hAdmits : admits v s = true) :
    v = pin := by
  unfold admits at hAdmits
  rw [hPin, hDisable] at hAdmits
  split at hAdmits
  · cases hAdmits
  · exact beq_iff_eq.1 hAdmits

theorem select_eq_folded
    (hParsed : ∀ v ∈ candidates, Parsed v)
    (hOrder : ∀ v, v ∈ order ↔ v ∈ candidates ∧ admitted spec v) :
    selectSdkVersion candidates spec = selectFolded order spec := by
  cases spec with
  | none =>
      apply maxVersion_eq hParsed
      intro v
      rw [hOrder]
      exact ⟨fun h => h.1, fun h => ⟨h, nofun⟩⟩
  | some s =>
      have hSame : ∀ v, v ∈ order ↔
          v ∈ candidates.filter fun c => admits c s := by
        intro v
        rw [hOrder, List.mem_filter, admitted]
        simp only [Option.mem_some_iff, forall_eq']
      have hKept : ∀ v ∈ candidates.filter fun c => admits c s,
          Parsed v := fun v hv => hParsed v (List.mem_filter.1 hv).1
      have hMax := maxVersion_eq hKept hSame
      have hCascade := cascade_eq hKept hSame
      have hDisabled : ∀ pin, s.version = some pin →
          s.rollForward = .Disable →
          ∀ v ∈ candidates.filter fun c => admits c s, v = pin :=
        fun pin hPin hDisable v hv =>
          eq_pin_of_admits hPin hDisable (List.mem_filter.1 hv).2
      rw [selectSdkVersion]
      generalize (candidates.filter fun c => admits c s) = l at *
      by_cases hNil : l = []
      · rw [if_pos hNil, nil_of_same hSame hNil, selectFolded]
        cases exactPin (some s) with
        | none => rfl
        | some pin => rfl
      · rw [if_neg hNil]
        rcases s with ⟨_ | pin, rollForward, allowPrerelease⟩
        · rw [hMax]
          cases rollForward <;> rfl
        · cases rollForward with
          | Disable =>
              have hMem : pin ∈ l := by
                rcases List.exists_mem_of_ne_nil l hNil with ⟨v, hv⟩
                rwa [← hDisabled pin rfl rfl v hv]
              show l.find? (· == pin) = if pin ∈ order then some pin else
                pick betterMatch order
              rw [find_pin, if_pos hMem, if_pos ((hSame pin).2 hMem)]
          | Patch =>
              show (match l.find? (· == pin) with
                | some exact => some exact
                | none => cascade l) = if pin ∈ order then some pin else
                pick betterMatch order
              rw [find_pin]
              by_cases hMem : pin ∈ l
              · rw [if_pos hMem, if_pos ((hSame pin).2 hMem)]
              · rw [if_neg hMem, if_neg fun h => hMem ((hSame pin).1 h)]
                exact hCascade
          | Feature => exact hCascade
          | Minor => exact hCascade
          | Major => exact hCascade
          | LatestPatch => exact hMax
          | LatestFeature => exact hMax
          | LatestMinor => exact hMax
          | LatestMajor => exact hMax

theorem selectFolded_eq_none_iff :
    selectFolded order spec = none ↔ order = [] := by
  unfold selectFolded
  cases exactPin spec with
  | none => exact pick_eq_none_iff
  | some pin =>
      by_cases hMem : pin ∈ order
      · simp only [if_pos hMem]
        constructor
        · nofun
        · intro hNil
          rw [hNil] at hMem
          cases hMem
      · simp only [if_neg hMem]
        exact pick_eq_none_iff

/- The admitted candidates. -/
theorem exists_order
    (candidates : List SdkVersion)
    (spec : Option VersionSpec) :
    ∃ order : List SdkVersion,
      ∀ v, v ∈ order ↔ v ∈ candidates ∧ admitted spec v := by
  cases spec with
  | none =>
      refine ⟨candidates, fun v => ⟨fun h => ⟨h, nofun⟩, fun h => h.1⟩⟩
  | some s =>
      refine ⟨candidates.filter fun c => admits c s, ?_⟩
      intro v
      rw [List.mem_filter, admitted]
      simp only [Option.mem_some_iff, forall_eq']

/- Over parsed versions the order is total and the display reads back; a
   selection folds the policy's rule over the admitted candidates in any
   order, the exact pin first where the policy prefers it. -/
theorem sdk_version_order_and_selection :
    (∀ u v w, Parsed u → Parsed v → Parsed w →
      (SdkVersion.cmp u v = .eq ↔ u = v) ∧
      SdkVersion.cmp v u = (SdkVersion.cmp u v).swap ∧
      ((SdkVersion.cmp u v).isLE → (SdkVersion.cmp v w).isLE →
        (SdkVersion.cmp u w).isLE)) ∧
    (∀ v, Parsed v → SdkVersion.parse v.display = some v) ∧
    (∀ candidates spec, (∀ v ∈ candidates, Parsed v) →
      (∀ candidates', (∀ v, v ∈ candidates' ↔ v ∈ candidates) →
        selectSdkVersion candidates' spec =
          selectSdkVersion candidates spec) ∧
      (selectSdkVersion candidates spec = none ↔
        ∀ v ∈ candidates, ¬ admitted spec v) ∧
      ∀ order, (∀ v, v ∈ order ↔ v ∈ candidates ∧ admitted spec v) →
        selectSdkVersion candidates spec = selectFolded order spec) := by
  refine ⟨?_, ?_, ?_⟩
  · intro u v w hu hv hw
    refine ⟨⟨eq_of_cmp_parsed hu hv, ?_⟩, OrientedCmp.eq_swap,
      TransCmp.isLE_trans⟩
    rintro rfl
    exact ReflCmp.compare_self
  · rintro v ⟨name, hName⟩
    exact parse_display (parse_wellFormed hName)
  · intro candidates spec hParsed
    rcases exists_order candidates spec with ⟨order, hOrder⟩
    have hSelect := select_eq_folded hParsed hOrder
    refine ⟨?_, ?_, fun order hOrder => select_eq_folded hParsed hOrder⟩
    · intro candidates' hSame
      rw [hSelect]
      apply select_eq_folded
      · intro v hv
        exact hParsed v ((hSame v).1 hv)
      · intro v
        rw [hOrder, hSame]
    · rw [hSelect, selectFolded_eq_none_iff, List.eq_nil_iff_forall_not_mem]
      constructor
      · intro hNone v hv hAdmitted
        exact hNone v ((hOrder v).2 ⟨hv, hAdmitted⟩)
      · intro hNone v hv
        exact hNone v ((hOrder v).1 hv).1 ((hOrder v).1 hv).2

/- Without a pin the higher of two bands is taken, not the lower. -/
theorem latest_crosses_bands :
    Parsed ⟨[8, 0, 100], none⟩ ∧ Parsed ⟨[9, 0, 100], none⟩ ∧
    admitted (some (.anyVersion true)) ⟨[8, 0, 100], none⟩ ∧
    admitted (some (.anyVersion true)) ⟨[9, 0, 100], none⟩ ∧
    selectSdkVersion [⟨[8, 0, 100], none⟩, ⟨[9, 0, 100], none⟩]
      (some (.anyVersion true)) = some ⟨[9, 0, 100], none⟩ ∧
    pick betterMatch [⟨[8, 0, 100], none⟩, ⟨[9, 0, 100], none⟩] =
      some ⟨[8, 0, 100], none⟩ ∧
    pick betterMatch [⟨[9, 0, 100], none⟩, ⟨[8, 0, 100], none⟩] =
      some ⟨[8, 0, 100], none⟩ := by
  refine ⟨⟨"8.0.100".toList, by decide⟩,
    ⟨"9.0.100".toList, by decide⟩, ?_, ?_, by decide,
    by decide, by decide⟩
  · rintro s ⟨⟩
    decide
  · rintro s ⟨⟩
    decide

end MSBuild

end Borzoi
