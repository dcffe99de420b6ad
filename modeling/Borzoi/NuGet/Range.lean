import Borzoi.NuGet.Version

/-
  Version ranges.

  A range is a bare version, which is an inclusive lower bound, or an
  interval in brackets.  A lower bound that ends in a star floats.
-/

namespace Borzoi

namespace NuGet

inductive FloatBehavior
  | Prerelease
  | Revision
  | Patch
  | Minor
  | Major
  | AbsoluteLatest
  | PrereleaseRevision
  | PrereleasePatch
  | PrereleaseMinor
  | PrereleaseMajor
  deriving DecidableEq, Repr

structure FloatSpec where
  behavior : FloatBehavior
  pattern : List Char
  deriving DecidableEq, Repr

structure VersionRange where
  min : Option NuGetVersion
  max : Option NuGetVersion
  minInclusive : Bool
  maxInclusive : Bool
  float : Option FloatSpec
  deriving DecidableEq, Repr

inductive RangeParseError
  | Empty
  | Malformed
  | BadVersion (e : VersionParseError)
  | BadFloat
  deriving DecidableEq, Repr

/- A version bound, or the error of its version. -/
def parseVersionBound
    (text : List Char) :
    Except RangeParseError NuGetVersion :=
  (NuGetVersion.parse text).mapError .BadVersion

/- `float_pattern`. -/
def floatPattern
    (behavior : FloatBehavior)
    (min : NuGetVersion)
    (releasePrefix : Option (List Char)) :
    List Char :=
  let major := Nat.toDigits 10 min.major
  let minor := Nat.toDigits 10 min.minor
  let patch := Nat.toDigits 10 min.patch
  let withPrefix (numeric : List Char) :=
    match releasePrefix with
    | none => numeric
    | some text => numeric ++ '-' :: text ++ ['*']
  match behavior with
  | .Major | .PrereleaseMajor => withPrefix ['*']
  | .AbsoluteLatest => ['*', '-', '*']
  | .Minor | .PrereleaseMinor => withPrefix (major ++ ['.', '*'])
  | .Patch | .PrereleasePatch =>
      withPrefix (major ++ '.' :: minor ++ ['.', '*'])
  | .Revision | .PrereleaseRevision =>
      withPrefix (major ++ '.' :: minor ++ '.' :: patch ++ ['.', '*'])
  | .Prerelease =>
      let nums := major ++ '.' :: minor ++ '.' :: patch
      withPrefix
        (if min.revision ≠ 0 then
          nums ++ '.' :: Nat.toDigits 10 min.revision
        else
          nums)

/- A float without a release part. -/
def parseNumericFloat
    (text : List Char) :
    Except RangeParseError (NuGetVersion × Option FloatSpec) := do
  let min ← parseVersionBound (text.dropLast ++ ['0'])
  let spec (behavior : FloatBehavior) :=
    some ⟨behavior, floatPattern behavior min none⟩
  match text.count '.' with
  | 0 => .ok (min, none)
  | 1 => .ok (min, spec .Minor)
  | 2 => .ok (min, spec .Patch)
  | 3 => .ok (min, spec .Revision)
  | _ => .error .BadFloat

/- The base and the behavior of a float with a release part. -/
def releaseBase
    (version : List Char) :
    Except RangeParseError (List Char × FloatBehavior) :=
  if '*' ∈ version then
    if version.getLast? ≠ some '*' then
      .error .BadFloat
    else
      let base := version.dropLast ++ ['0']
      match version.count '.' with
      | 0 => .ok (base, .PrereleaseMajor)
      | 1 => .ok (base, .PrereleaseMinor)
      | 2 => .ok (base, .PrereleasePatch)
      | 3 => .ok (base, .PrereleaseRevision)
      | _ => .error .BadFloat
  else
    .ok (version, .Prerelease)

/- A float with a release part. -/
def parseReleaseFloat
    (version release : List Char) :
    Except RangeParseError (NuGetVersion × Option FloatSpec) := do
  let stem := release.dropLast
  let releaseMin :=
    if stem = [] then
      ['0']
    else if stem.getLast? = some '.' then
      stem ++ ['0']
    else
      stem
  let (base, behavior) ← releaseBase version
  let min ← parseVersionBound (base ++ '-' :: releaseMin)
  .ok (min, some ⟨behavior, floatPattern behavior min (some stem)⟩)

/- `parse_float`. -/
def parseFloat
    (text : List Char) :
    Except RangeParseError (NuGetVersion × Option FloatSpec) :=
  if text = ['*'] then
    .ok (⟨0, 0, 0, 0, [], none⟩, some ⟨.Major, ['*']⟩)
  else if text = ['*', '-', '*'] then
    .ok (⟨0, 0, 0, 0, [['0']], none⟩,
      some ⟨.AbsoluteLatest, ['*', '-', '*']⟩)
  else if '+' ∈ text then
    .error .BadFloat
  else
    let version := text.takeWhile (· != '-')
    match text.drop version.length with
    | _ :: release => parseReleaseFloat version release
    | [] => parseNumericFloat text

/- `parse_min_bound`. -/
def parseMinBound
    (text : List Char) :
    Except RangeParseError (NuGetVersion × Option FloatSpec) :=
  if text.getLast? = some '*' then
    parseFloat text
  else
    (parseVersionBound text).map fun v => (v, none)

namespace VersionRange

/- The bounds between the brackets. -/
def parseBounds
    (minInclusive maxInclusive : Bool)
    (parts : List (List Char)) :
    Except RangeParseError
      (Option NuGetVersion × Option FloatSpec × Option NuGetVersion) :=
  match parts with
  | [only] =>
      if !minInclusive || !maxInclusive then
        .error .Malformed
      else if trim only = [] then
        .ok (none, none, none)
      else
        (parseVersionBound only).map fun v => (some v, none, some v)
  | [lower, upper] => do
      let min ←
        if trim lower = [] then
          pure none
        else
          some <$> parseMinBound lower
      let max ←
        if trim upper = [] then
          pure none
        else
          some <$> parseVersionBound (trim upper)
      match min with
      | some (v, float) => .ok (some v, float, max)
      | none => .ok (none, none, max)
  | _ => .error .Malformed

/- Bounds in the wrong order, or equal with different brackets. -/
def boundsMalformed
    (minInclusive maxInclusive : Bool)
    (min max : Option NuGetVersion) :
    Bool :=
  match min, max with
  | some lower, some upper =>
      match lower.cmp upper with
      | .gt => true
      | .eq => minInclusive != maxInclusive
      | .lt => false
  | _, _ => false

/- `VersionRange::parse`. -/
def parse
    (input : List Char) :
    Except RangeParseError VersionRange := do
  let t := trim input
  if t = [] then
    throw .Empty
  let first := t.head?
  let last := t.getLast?
  let endsBracket := last = some ']' ∨ last = some ')'
  if ¬ (first = some '[' ∨ first = some '(') then
    if endsBracket then
      throw .Malformed
    let (min, float) ← parseMinBound t
    return ⟨some min, none, true, false, float⟩
  if ¬ endsBracket then
    throw .Malformed
  let minInclusive := decide (first = some '[')
  let maxInclusive := decide (last = some ']')
  let parts := (t.tail.dropLast).splitOn ','
  if parts.all List.isEmpty then
    throw .Malformed
  let (min, float, max) ← parseBounds minInclusive maxInclusive parts
  if boundsMalformed minInclusive maxInclusive min max then
    throw .Malformed
  return ⟨min, max, min.isSome && minInclusive, max.isSome && maxInclusive,
    float⟩

/- `is_floating`. -/
def isFloating
    (range : VersionRange) :
    Bool :=
  range.float.isSome

/- `satisfies`. -/
def satisfies
    (range : VersionRange)
    (version : NuGetVersion) :
    Bool :=
  let above :=
    match range.min with
    | some min =>
        if range.minInclusive then
          version.cmp min != .lt
        else
          version.cmp min == .gt
    | none => true
  let below :=
    match range.max with
    | some max =>
        if range.maxInclusive then
          version.cmp max != .gt
        else
          version.cmp max == .lt
    | none => true
  above && below

end VersionRange

end NuGet

end Borzoi
