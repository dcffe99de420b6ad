import Mathlib.Data.List.Basic
import Mathlib.Algebra.GroupWithZero.Nat
import Mathlib.Algebra.Ring.Int.Defs

/-
  Package versions.

  A version has four numbers, release labels and build metadata.  Two
  labels are compared as numbers when both are 32-bit integers, and
  ignoring case otherwise.
-/

namespace Borzoi

namespace NuGet

structure NuGetVersion where
  major : Nat
  minor : Nat
  patch : Nat
  revision : Nat
  releaseLabels : List (List Char)
  metadata : Option (List Char)
  deriving DecidableEq, Repr

inductive VersionParseError
  | Empty
  | BadNumericPart
  | WrongPartCount
  | BadReleaseLabel
  | BadMetadata
  deriving DecidableEq, Repr

/- `char::is_whitespace`. -/
def isWhitespace
    (c : Char) :
    Bool :=
  let n := c.toNat
  (9 ≤ n && n ≤ 13) || n == 0x20 || n == 0x85 || n == 0xA0 ||
    n == 0x1680 || (0x2000 ≤ n && n ≤ 0x200A) || n == 0x2028 ||
    n == 0x2029 || n == 0x202F || n == 0x205F || n == 0x3000

/- `str::trim`. -/
def trim
    (s : List Char) :
    List Char :=
  ((s.dropWhile isWhitespace).reverse.dropWhile isWhitespace).reverse

def isAsciiDigit
    (c : Char) :
    Bool :=
  '0' ≤ c && c ≤ '9'

/- `is_part_byte`. -/
def isPartByte
    (c : Char) :
    Bool :=
  isAsciiDigit c || ('a' ≤ c && c ≤ 'z') || ('A' ≤ c && c ≤ 'Z') ||
    c == '-'

/- The number a run of digits stands for. -/
def decimal
    (digits : List Char) :
    Nat :=
  digits.foldl (fun n c => 10 * n + (c.toNat - '0'.toNat)) 0

/- `parse_component`. -/
def parseComponent
    (component : List Char) :
    Except VersionParseError Nat :=
  let trimmed := trim component
  let digits :=
    match trimmed with
    | '+' :: rest => rest
    | _ => trimmed
  if digits = [] ∨ digits.all isAsciiDigit = false then
    .error .BadNumericPart
  else
    let significant := digits.dropWhile (· == '0')
    if 10 < significant.length then
      .error .BadNumericPart
    else if 2 ^ 31 - 1 < decimal significant then
      .error .BadNumericPart
    else
      .ok (decimal significant)

/- The version, the release labels and the metadata of a text. -/
def sections
    (s : List Char) :
    List Char × Option (List Char) × Option (List Char) :=
  let version := s.takeWhile fun c => c != '-' && c != '+'
  match s.drop version.length with
  | '-' :: rest =>
      let release := rest.takeWhile (· != '+')
      (version, some release, (rest.drop release.length).tail?)
  | _ :: rest => (version, none, some rest)
  | [] => (version, none, none)

/- A release label as the parser accepts it. -/
def releaseLabel
    (label : List Char) :
    Except VersionParseError (List Char) :=
  if label = [] ∨ label.all isPartByte = false then
    .error .BadReleaseLabel
  else if 1 < label.length ∧ label.head? = some '0' ∧
      label.all isAsciiDigit then
    .error .BadReleaseLabel
  else
    .ok label

/- Build metadata as the parser accepts it. -/
def parseMetadata
    (m : List Char) :
    Except VersionParseError (List Char) :=
  if m = [] ∨
      (m.splitOn '.').any (fun p => p.isEmpty || !p.all isPartByte) then
    .error .BadMetadata
  else
    .ok m

/- `NuGetVersion::parse`. -/
def NuGetVersion.parse
    (input : List Char) :
    Except VersionParseError NuGetVersion := do
  let trimmed := trim input
  if trimmed = [] then
    throw .Empty
  let (version, release, metadata) := sections trimmed
  if version = [] then
    throw .BadNumericPart
  let effective := if '.' ∈ version then version else version ++ ['.', '0']
  let components := effective.splitOn '.'
  if 4 < components.length then
    throw .WrongPartCount
  let nums ← components.mapM parseComponent
  let releaseLabels ←
    match release with
    | some text => (text.splitOn '.').mapM releaseLabel
    | none => pure []
  let metadata ←
    match metadata with
    | some text => some <$> parseMetadata text
    | none => pure none
  return ⟨nums.getD 0 0, nums.getD 1 0, nums.getD 2 0, nums.getD 3 0,
    releaseLabels, metadata⟩

inductive LabelKey
  | Numeric (n : Int)
  | Alpha (label : List Char)
  deriving DecidableEq, Repr

/- `label_numeric`. -/
def labelNumeric
    (label : List Char) :
    Option Int :=
  let (negative, digits) :=
    match label with
    | '-' :: rest => (true, rest)
    | _ => (false, label)
  if digits = [] ∨ digits.all isAsciiDigit = false then
    none
  else
    let significant := digits.dropWhile (· == '0')
    if 10 < significant.length then
      none
    else
      let magnitude : Int := decimal significant
      let value := if negative then -magnitude else magnitude
      if -2 ^ 31 ≤ value ∧ value < 2 ^ 31 then some value else none

/- `label_key`. -/
def labelKey
    (label : List Char) :
    LabelKey :=
  match labelNumeric label with
  | some n => .Numeric n
  | none => .Alpha label

/- The bytes of a label in lower case. -/
def lowerBytes
    (label : List Char) :
    List Nat :=
  label.map fun c => c.toLower.toNat

/- `compare_labels`. -/
def compareLabels
    (a b : List Char) :
    Ordering :=
  match labelKey a, labelKey b with
  | .Numeric x, .Numeric y => compare x y
  | .Numeric _, .Alpha _ => .lt
  | .Alpha _, .Numeric _ => .gt
  | .Alpha x, .Alpha y => compare (lowerBytes x) (lowerBytes y)

/- `eq_ignore_ascii_case`. -/
def eqIgnoreAsciiCase
    (a b : List Char) :
    Bool :=
  lowerBytes a == lowerBytes b

/- The first difference between the paired labels. -/
def firstDifference
    (pairs : List (List Char × List Char)) :
    Ordering :=
  match pairs with
  | [] => .eq
  | (a, b) :: rest => (compareLabels a b).then (firstDifference rest)

/- What a hasher is fed. -/
structure Hasher
    (σ : Type) where
  writeU8 : Nat → σ → σ
  writeU32 : Nat → σ → σ
  writeI32 : Int → σ → σ
  writeUsize : Nat → σ → σ

namespace NuGetVersion

def isPrerelease
    (v : NuGetVersion) :
    Bool :=
  !v.releaseLabels.isEmpty

/- The comparison of the numbers, as of a tuple. -/
def compareNums
    (v w : NuGetVersion) :
    Ordering :=
  (compare v.major w.major).then
    ((compare v.minor w.minor).then
      ((compare v.patch w.patch).then (compare v.revision w.revision)))

/- The comparison of the labels of versions with the same numbers. -/
def compareReleases
    (v w : NuGetVersion) :
    Ordering :=
  match v.isPrerelease, w.isPrerelease with
  | false, false => .eq
  | false, true => .gt
  | true, false => .lt
  | true, true =>
      (firstDifference (v.releaseLabels.zip w.releaseLabels)).then
        (compare v.releaseLabels.length w.releaseLabels.length)

/- `Ord::cmp`. -/
def cmp
    (v w : NuGetVersion) :
    Ordering :=
  (v.compareNums w).then (v.compareReleases w)

/- `PartialEq::eq`. -/
def eq
    (v w : NuGetVersion) :
    Bool :=
  v.cmp w == .eq

/- `eq_strict`. -/
def eqStrict
    (v w : NuGetVersion) :
    Bool :=
  (v.major == w.major && v.minor == w.minor && v.patch == w.patch &&
      v.revision == w.revision) &&
    v.releaseLabels.length == w.releaseLabels.length &&
    (v.releaseLabels.zip w.releaseLabels).all fun pair =>
      eqIgnoreAsciiCase pair.1 pair.2

/- `to_normalized_string`. -/
def toNormalizedString
    (v : NuGetVersion) :
    List Char :=
  let nums := Nat.toDigits 10 v.major ++ '.' :: Nat.toDigits 10 v.minor ++
    '.' :: Nat.toDigits 10 v.patch
  let nums :=
    if v.revision ≠ 0 then
      nums ++ '.' :: Nat.toDigits 10 v.revision
    else
      nums
  if v.releaseLabels ≠ [] then
    nums ++ '-' :: ['.'].intercalate v.releaseLabels
  else
    nums

/- The writes for one label. -/
def hashLabel
    {σ : Type}
    (h : Hasher σ)
    (label : List Char)
    (state : σ) :
    σ :=
  match labelKey label with
  | .Numeric n => h.writeI32 n (h.writeU8 0 state)
  | .Alpha a =>
      h.writeU8 0xff
        ((lowerBytes a).foldl (fun s b => h.writeU8 b s)
          (h.writeU8 1 state))

/- `Hash::hash`. -/
def hash
    {σ : Type}
    (h : Hasher σ)
    (v : NuGetVersion)
    (state : σ) :
    σ :=
  let nums := h.writeU32 v.revision (h.writeU32 v.patch
    (h.writeU32 v.minor (h.writeU32 v.major state)))
  v.releaseLabels.foldl (fun s label => hashLabel h label s)
    (h.writeUsize v.releaseLabels.length nums)

end NuGetVersion

end NuGet

end Borzoi
