import Borzoi.NuGet.FrameworkCompat
import Borzoi.Program.Narrowing

/-
  The nearest framework a project may consume.

  The reducer narrows the compatible candidates step by step and answers
  with the index of the first one left.  Choosing between portable
  candidates asks for the nearest of their members, so the reducer calls
  itself on them; it goes by fuel.

  A candidate goes with its index throughout.
-/

namespace Borzoi

namespace NuGet

open FrameworkId NuGetFramework Narrowing

/- A candidate and its index. -/
abbrev Offer :=
  NuGetFramework × Nat

/- `ci_cmp`. -/
def ciCompare
    (a b : List Char) :
    Ordering :=
  compare ((toAsciiLowercase a).map Char.toNat)
    ((toAsciiLowercase b).map Char.toNat)

/- `opt_ci_cmp`. -/
def optCiCompare :
    Option (List Char) → Option (List Char) → Ordering
  | none, none => .eq
  | none, some _ => .lt
  | some _, none => .gt
  | some a, some b => ciCompare a b

def sameName
    (a b : NuGetFramework) :
    Bool :=
  eqIgnoreAsciiCase a.framework b.framework

def fullEq
    (a b : NuGetFramework) :
    Bool :=
  !a.isUnsupported && !b.isUnsupported && a.eq b

def isNetcore50AndUp
    (f : NuGetFramework) :
    Bool :=
  f.hasId NETCORE && decide (5 ≤ f.major)

def isNet5Era
    (f : NuGetFramework) :
    Bool :=
  f.hasId NET_CORE_APP && decide (5 ≤ f.major)

/- `is_net6_era` of the reducer. -/
def isNet6Era
    (f : NuGetFramework) :
    Bool :=
  isNet5Era f && decide (6 ≤ f.major)

def isPackageBased
    (f : NuGetFramework) :
    Bool :=
  f.hasId DNXCORE || f.hasId DOTNET || f.hasId NET_STANDARD ||
    f.hasId NET_CORE_APP || f.hasId UAP || f.hasId TIZEN ||
    isNetcore50AndUp f

def precedenceIn
    (identifiers : List (List Char × Nat))
    (framework : List Char) :
    Nat :=
  ((identifiers.find? fun (identifier, _) =>
    eqIgnoreAsciiCase framework identifier).map Prod.snd).getD (2 ^ 32 - 1)

def nonPackageBasedPrecedence
    (framework : List Char) :
    Nat :=
  precedenceIn
    [(NET_FRAMEWORK, 0), (NETCORE, 1), (WINDOWS, 2), (WINDOWS_PHONE_APP, 3)]
    framework

def packageBasedPrecedence
    (framework : List Char) :
    Nat :=
  precedenceIn
    [(NET_CORE_APP, 0), (NET_STANDARD, 2), (DOTNET, 3)]
    framework

def equivalentPrecedence
    (framework : List Char) :
    Nat :=
  precedenceIn
    [(WINDOWS, 0), (NETCORE, 1), (WINRT, 2), (WINDOWS_PHONE, 3),
      (SILVERLIGHT, 4), (DNXCORE, 5), (ASPNETCORE, 6), (DNX, 7), (ASPNET, 8)]
    framework

def frameworkPrecedenceCompare
    (a b : NuGetFramework) :
    Ordering :=
  let aPackageBased := isPackageBased a && !isNetcore50AndUp a
  let bPackageBased := isPackageBased b && !isNetcore50AndUp b
  match compare aPackageBased bPackageBased with
  | .eq =>
      if aPackageBased then
        compare (packageBasedPrecedence a.framework)
          (packageBasedPrecedence b.framework)
      else
        compare (nonPackageBasedPrecedence a.framework)
          (nonPackageBasedPrecedence b.framework)
  | ordering => ordering

def equivalentCompare
    (a b : NuGetFramework) :
    Ordering :=
  compare (equivalentPrecedence a.framework)
    (equivalentPrecedence b.framework)

def platformName
    (f : NuGetFramework) :
    Option (List Char) :=
  f.platform.map Prod.fst

def platformVersion
    (f : NuGetFramework) :
    List Nat :=
  (f.platform.map Prod.snd).getD [0, 0, 0, 0]

def nugetFrameworkSortCompare
    (a b : NuGetFramework) :
    Ordering :=
  if a.isAny && !b.isAny then
    .lt
  else if !a.isAny && b.isAny then
    .gt
  else if a.isUnsupported && !b.isUnsupported then
    .gt
  else if !a.isUnsupported && b.isUnsupported then
    .lt
  else
    ((((ciCompare a.framework b.framework).then
      (compare a.version b.version)).then
      (optCiCompare a.profile b.profile)).then
      (optCiCompare (platformName a) (platformName b))).then
      (compare (platformVersion a) (platformVersion b))

/- `version_string`. -/
def versionString
    (version : List Nat) :
    List Char :=
  List.intercalate ['.'] (version.map (Nat.toDigits 10))

def hashByte
    (hash : UInt64)
    (byte : UInt8) :
    UInt64 :=
  (hash ^^^ byte.toUInt64) * 0x100000001b3

def frameworkHash
    (f : NuGetFramework) :
    UInt64 :=
  [f.framework, versionString f.version, f.profile.getD [],
    (platformName f).getD [], versionString (platformVersion f)].foldl
    (fun hash part =>
      hashByte (((part.map Char.toUpper).flatMap
        String.utf8EncodeChar).foldl hashByte hash) 0xff)
    0xcbf29ce484222325

def finalCompare
    (a b : NuGetFramework) :
    Ordering :=
  ((frameworkPrecedenceCompare a b).then
    (nugetFrameworkSortCompare b a)).then
    (compare (frameworkHash a) (frameworkHash b))

def frameworkDisplayForSort
    (f : NuGetFramework) :
    List Char :=
  (folderName f).getD
    (f.framework ++ ',' :: versionString f.version ++
      ',' :: f.profile.getD [])

def reduceCoreCompare
    (a b : NuGetFramework) :
    Ordering :=
  (ciCompare a.framework b.framework).then
    (ciCompare (frameworkDisplayForSort a) (frameworkDisplayForSort b))

/- `sort_by` of a comparison and then the index. -/
def sortOffers
    (cmp : NuGetFramework → NuGetFramework → Ordering)
    (offers : List Offer) :
    List Offer :=
  offers.mergeSort fun a b =>
    ((cmp a.1 b.1).then (compare a.2 b.2)).isLE

def EQUIVALENT_LITERALS :
    List (String × String) :=
  [("uap", "uap10.0"),
    ("win", "win8"),
    ("win8", "netcore45"),
    ("netcore45", "winrt45"),
    ("netcore", "netcore45"),
    ("winrt", "winrt45"),
    ("win81", "netcore451"),
    ("wp", "wp7"),
    ("wp7", "sl3-wp"),
    ("wp71", "sl4-wp71"),
    ("wp8", "sl8-wp"),
    ("wp81", "sl81-wp"),
    ("wpa", "wpa81"),
    ("tizen", "tizen3"),
    ("dnx", "dnx45"),
    ("dnxcore", "dnxcore50"),
    ("dotnet", "dotnet50"),
    ("aspnet", "aspnet50"),
    ("aspnetcore", "aspnetcore50"),
    ("dnx45", "aspnet50"),
    ("dnxcore50", "aspnetcore50")]

/- A literal of the table; all of them parse. -/
def literalFramework
    (text : String) :
    NuGetFramework :=
  match parseFolder text.toList with
  | .ok f => f
  | .error _ => unsupported

def equivalentPairs
    (f : NuGetFramework) :
    List NuGetFramework :=
  EQUIVALENT_LITERALS.flatMap fun (left, right) =>
    let left := literalFramework left
    let right := literalFramework right
    (if fullEq f left then [right] else []) ++
      (if fullEq f right then [left] else [])

def equivalentFrameworks
    (a b : NuGetFramework) :
    Bool :=
  fullEq a b || (equivalentPairs a).any fun equivalent => fullEq equivalent b

def reduceEquivalent
    (frameworks : List NuGetFramework) :
    List NuGetFramework :=
  let cmp := fun a b =>
    (equivalentCompare a b).then (nugetFrameworkSortCompare b a)
  keepFirst
    (fun existing candidate =>
      fullEq existing candidate || equivalentFrameworks existing candidate)
    ((sortOffers cmp frameworks.zipIdx).map Prod.fst)

/- One turn of the inner loop of `reduce_upwards`: `j` makes `i` a
   duplicate. -/
def covers
    (j i : NuGetFramework) :
    Bool :=
  isCompatible j i &&
    if isCompatible i j then
      sameName i j && (isZero i.version && !isZero j.version)
    else
      true

def distinctFull
    (input : List Offer) :
    List Offer :=
  keepFirst (fun existing offer => fullEq existing.1 offer.1) input

/- The candidates that are not `Any`, when there is one. -/
def dropAny
    (input : List Offer) :
    List Offer :=
  if input.any fun i => !i.1.isAny then
    input.filter fun i => !i.1.isAny
  else
    input

def reduceUpwards
    (input : List Offer) :
    List Offer :=
  let input := distinctFull (dropAny input)
  let results := input.filter fun i =>
    !input.any fun j => i.2 != j.2 && covers j.1 i.1
  sortOffers reduceCoreCompare results

/- The owners of a member. -/
def ownsMember
    (member : NuGetFramework)
    (candidate : NuGetFramework) :
    Bool :=
  (pclMembers candidate).any fun m => fullEq m member

def nearestNonPclToPcl
    (nearest : NuGetFramework → List NuGetFramework → Option Nat)
    (project : NuGetFramework)
    (reduced : List Offer) :
    List Offer :=
  let members := reduced.flatMap fun c => pclMembers c.1
  match (nearest project members).bind fun index => members[index]? with
  | none => reduced
  | some member => reduced.filter fun c => ownsMember member c.1

def nearestPclToPcl
    (nearest : NuGetFramework → List NuGetFramework → Option Nat)
    (project : NuGetFramework)
    (reduced : List Offer) :
    List Offer :=
  let projectMembers := reduceEquivalent (pclMembers project)
  let allMembers :=
    keepFirst fullEq (reduced.flatMap fun c => pclMembers c.1)
  let nearestMembers := projectMembers.filterMap fun projectMember =>
    (nearest projectMember allMembers).bind fun index => allMembers[index]?
  let scores := reduced.map fun c =>
    (c, nearestMembers.countP fun member => ownsMember member c.1)
  match (scores.map Prod.snd).max? with
  | none => reduced
  | some bestScore =>
      scores.filterMap fun (c, score) =>
        if score = bestScore then some c else none

/- The members of `b` whose version compares with that of the first
   member of `a` of the same name in the given way. -/
def countVersions
    (ordering : Ordering)
    (a b : List NuGetFramework) :
    Nat :=
  b.countP fun member =>
    (a.find? fun m => eqIgnoreAsciiCase m.framework member.framework).any
      fun m => compare member.version m.version == ordering

def isBetterPcl
    (current considering : NuGetFramework) :
    Bool :=
  let currentMembers := pclMembers current
  let consideringMembers := pclMembers considering
  match compare consideringMembers.length currentMembers.length with
  | .lt => true
  | .gt => false
  | .eq =>
      let currentHighest := countVersions .lt currentMembers consideringMembers
      let consideringHighest :=
        countVersions .gt currentMembers consideringMembers
      match compare consideringHighest currentHighest with
      | .gt => true
      | .lt => false
      | .eq =>
          let netOrder :=
            match currentMembers.find? fun m => m.hasId NET_FRAMEWORK,
              consideringMembers.find? fun m => m.hasId NET_FRAMEWORK with
            | some currentNet, some consideringNet =>
                compare consideringNet.version currentNet.version
            | _, _ => .eq
          match netOrder with
          | .gt => true
          | .lt => false
          | .eq =>
              ciCompare ((folderName considering).getD [])
                ((folderName current).getD []) == .lt

def bestPcl
    (reduced : List Offer) :
    Option Offer :=
  reduced.foldl
    (fun current offer =>
      match current with
      | none => some offer
      | some best =>
          if isBetterPcl best.1 offer.1 then some offer else some best)
    none

def isFallbackPlatform
    (f : NuGetFramework) :
    Bool :=
  f.hasId MONO_ANDROID || f.hasId TIZEN

/- The candidates of the name of the project. -/
def sameNameStep
    (project : NuGetFramework)
    (reduced : List Offer) :
    List Offer :=
  if 1 < reduced.length ∧ reduced.any (fun c => sameName c.1 project) then
    reduced.filter fun c =>
      if isNet6Era project && project.platform.isSome &&
          isFallbackPlatform c.1 then
        true
      else
        sameName c.1 project
  else
    reduced

/- Candidates that are not portable before portable ones, and the best of
   portable ones. -/
def pclStep
    (nearest : NuGetFramework → List NuGetFramework → Option Nat)
    (project : NuGetFramework)
    (reduced : List Offer) :
    List Offer :=
  if 1 < reduced.length then
    let anyPcl := reduced.any fun c => c.1.isPcl
    let anyNonPcl := reduced.any fun c => !c.1.isPcl
    if anyPcl && anyNonPcl then
      reduced.filter fun c => !c.1.isPcl
    else if anyPcl then
      let reduced :=
        if project.isPcl then
          nearestPclToPcl nearest project reduced
        else
          nearestNonPclToPcl nearest project reduced
      if 1 < reduced.length then
        match bestPcl reduced with
        | some best => [best]
        | none => reduced
      else
        reduced
    else
      reduced
  else
    reduced

def packageBasedStep
    (project : NuGetFramework)
    (reduced : List Offer) :
    List Offer :=
  if 1 < reduced.length ∧ !isPackageBased project ∧
      reduced.any (fun c => isPackageBased c.1) ∧
      reduced.any (fun c => !isPackageBased c.1) then
    reduced.filter fun c => !isPackageBased c.1
  else
    reduced

/- The candidates of the profile of the project, when there is one. -/
def sameProfileStep
    (project : NuGetFramework)
    (reduced : List Offer) :
    List Offer :=
  match project.profile with
  | none => reduced
  | some projectProfile =>
      let sameProfile := reduced.filter fun c =>
        sameName c.1 project &&
          c.1.profile.any fun profile =>
            eqIgnoreAsciiCase profile projectProfile
      if sameProfile ≠ [] then sameProfile else reduced

/- The candidates without a profile, when there are both kinds. -/
def profilelessStep
    (reduced : List Offer) :
    List Offer :=
  if 1 < reduced.length ∧ reduced.any (fun c => c.1.profile.isSome) ∧
      reduced.any (fun c => c.1.profile.isNone) then
    reduced.filter fun c => c.1.profile.isNone
  else
    reduced

def profileStep
    (project : NuGetFramework)
    (reduced : List Offer) :
    List Offer :=
  if 1 < reduced.length ∧ !reduced.any (fun c => c.1.isPcl) then
    profilelessStep (sameProfileStep project reduced)
  else
    reduced

/- The candidates of the highest version of the name of the project. -/
def highestVersionStep
    (project : NuGetFramework)
    (reduced : List Offer) :
    List Offer :=
  let versions := (reduced.filter fun c => sameName c.1 project).map
    fun c => c.1.version
  match versions.max? with
  | none => reduced
  | some version =>
      reduced.filter fun c =>
        sameName c.1 project && c.1.version == version

/- The candidates of the platform a modern project falls back to. -/
def fallbackStep
    (reduced : List Offer) :
    List Offer :=
  if reduced.any fun c => c.1.hasId TIZEN then
    reduced.filter fun c => c.1.hasId TIZEN
  else
    reduced.filter fun c => c.1.hasId MONO_ANDROID

def platformStep
    (project : NuGetFramework)
    (reduced : List Offer) :
    List Offer :=
  if 1 < reduced.length ∧ project.platform.isSome then
    let hasModernSameName := reduced.any fun c =>
      sameName c.1 project && decide (6 ≤ c.1.major)
    if !isNet6Era project || hasModernSameName then
      highestVersionStep project reduced
    else if isNet6Era project &&
        reduced.any (fun c => isFallbackPlatform c.1) then
      fallbackStep reduced
    else
      reduced
  else
    reduced

/- The index of the first candidate in the final order. -/
def firstOffer
    (reduced : List Offer) :
    Option Nat :=
  (match reduced with
  | [] => none
  | [only] => some only
  | _ => (sortOffers finalCompare reduced).head?).map Prod.snd

/- The candidates that are supported, when there is one. -/
def possibleOffers
    (candidates : List NuGetFramework) :
    List Offer :=
  let possible := candidates.zipIdx
  if possible.any fun c => !c.1.isUnsupported then
    possible.filter fun c => !c.1.isUnsupported
  else
    possible

def compatibleOffers
    (project : NuGetFramework)
    (candidates : List NuGetFramework) :
    List Offer :=
  (possibleOffers candidates).filter fun c => isCompatible project c.1

/- The steps past `reduce_upwards`. -/
def narrowed
    (nearest : NuGetFramework → List NuGetFramework → Option Nat)
    (project : NuGetFramework)
    (reduced : List Offer) :
    List Offer :=
  platformStep project (profileStep project (packageBasedStep project
    (pclStep nearest project (sameNameStep project reduced))))

/- The body of `get_nearest`, with `nearest` for the calls of itself. -/
def getNearestWith
    (nearest : NuGetFramework → List NuGetFramework → Option Nat)
    (project : NuGetFramework)
    (candidates : List NuGetFramework) :
    Option Nat :=
  match (possibleOffers candidates).find? fun c => fullEq project c.1 with
  | some c => some c.2
  | none =>
      let compatible := compatibleOffers project candidates
      if compatible = [] then
        none
      else
        firstOffer (narrowed nearest project (reduceUpwards compatible))

def getNearestFuel :
    Nat → NuGetFramework → List NuGetFramework → Option Nat
  | 0 => fun _ _ => none
  | fuel + 1 => getNearestWith (getNearestFuel fuel)

/- The longest profile of the candidates. -/
def longestProfile
    (candidates : List NuGetFramework) :
    Nat :=
  (candidates.map fun c => (c.profile.getD []).length).foldl max 0

namespace DependencyGroupNearest

/- `dependency_group_nearest::get_nearest` with fuel for the profiles of
   the candidates. -/
def getNearest
    (project : NuGetFramework)
    (candidates : List NuGetFramework) :
    Option Nat :=
  getNearestFuel (longestProfile candidates + 2) project candidates

end DependencyGroupNearest

namespace Nearest

/- `nearest::get_nearest`. -/
def getNearest
    (project : NuGetFramework)
    (candidates : List NuGetFramework) :
    Option Nat :=
  if !project.isSpecificFramework then
    none
  else
    DependencyGroupNearest.getNearest project candidates

end Nearest

end NuGet

end Borzoi
