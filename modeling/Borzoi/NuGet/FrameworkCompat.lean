import Borzoi.NuGet.Framework
import Mathlib.Data.List.Lex

/-
  Which assets a project can consume.

  A portable candidate is taken through the frameworks of its profile, so
  the relation calls itself on them; it goes by fuel, and the profile of a
  member is shorter than the profile it stands in.
-/

namespace Borzoi

namespace NuGet

open FrameworkId NuGetFramework

structure Mapping where
  project : List Char
  projectMin : List Nat
  projectMaxExcl : Option (List Nat)
  candidate : List Char
  candidateMax : List Nat

/- `m`. -/
def mapping
    (project : List Char)
    (projectMin : List Nat)
    (candidate : List Char)
    (candidateMax : List Nat) :
    Mapping :=
  ⟨project, projectMin, none, candidate, candidateMax⟩

def MAPPINGS :
    List Mapping :=
  [mapping NET_CORE_APP [1, 0, 0, 0] NET_STANDARD [1, 6, 0, 0],
    mapping NET_CORE_APP [2, 0, 0, 0] NET_STANDARD [2, 0, 0, 0],
    mapping NET_CORE_APP [3, 0, 0, 0] NET_STANDARD [2, 1, 0, 0],
    mapping NET_FRAMEWORK [4, 5, 0, 0] NET_STANDARD [1, 1, 0, 0],
    mapping NET_FRAMEWORK [4, 5, 1, 0] NET_STANDARD [1, 2, 0, 0],
    mapping NET_FRAMEWORK [4, 6, 0, 0] NET_STANDARD [1, 3, 0, 0],
    mapping NET_FRAMEWORK [4, 6, 1, 0] NET_STANDARD [2, 0, 0, 0],
    mapping UAP [10, 0, 0, 0] NET_STANDARD [1, 4, 0, 0],
    mapping UAP [10, 0, 15064, 0] NET_STANDARD [2, 0, 0, 0],
    mapping MONO_ANDROID [0, 0, 0, 0] NET_STANDARD [2, 1, 0, 0],
    mapping MONO_TOUCH [0, 0, 0, 0] NET_STANDARD [2, 1, 0, 0],
    mapping MONO_MAC [0, 0, 0, 0] NET_STANDARD [2, 1, 0, 0],
    mapping XAMARIN_IOS [0, 0, 0, 0] NET_STANDARD [2, 1, 0, 0],
    mapping XAMARIN_MAC [0, 0, 0, 0] NET_STANDARD [2, 1, 0, 0],
    mapping XAMARIN_TVOS [0, 0, 0, 0] NET_STANDARD [2, 1, 0, 0],
    mapping XAMARIN_WATCHOS [0, 0, 0, 0] NET_STANDARD [2, 1, 0, 0],
    mapping TIZEN [0, 0, 0, 0] NET_STANDARD [1, 6, 0, 0],
    mapping TIZEN [4, 0, 0, 0] NET_STANDARD [2, 0, 0, 0],
    mapping TIZEN [6, 0, 0, 0] NET_STANDARD [2, 1, 0, 0],
    mapping WINDOWS [8, 0, 0, 0] NET_STANDARD [1, 1, 0, 0],
    mapping WINDOWS [8, 1, 0, 0] NET_STANDARD [1, 2, 0, 0],
    mapping WINDOWS_PHONE [8, 0, 0, 0] NET_STANDARD [1, 0, 0, 0],
    mapping WINDOWS_PHONE_APP [8, 1, 0, 0] NET_STANDARD [1, 2, 0, 0],
    mapping DNXCORE [5, 0, 0, 0] NET_STANDARD [1, 5, 0, 0],
    mapping NET_FRAMEWORK [4, 5, 0, 0] DOTNET [5, 2, 0, 0],
    mapping NET_FRAMEWORK [4, 5, 1, 0] DOTNET [5, 3, 0, 0],
    mapping NET_FRAMEWORK [4, 6, 0, 0] DOTNET [5, 4, 0, 0],
    mapping NET_FRAMEWORK [4, 6, 1, 0] DOTNET [5, 5, 0, 0],
    mapping NET_FRAMEWORK [4, 6, 2, 0] DOTNET [5, 6, 0, 0],
    mapping MONO_ANDROID [0, 0, 0, 0] DOTNET [5, 6, 0, 0],
    mapping MONO_TOUCH [0, 0, 0, 0] DOTNET [5, 6, 0, 0],
    mapping MONO_MAC [0, 0, 0, 0] DOTNET [5, 6, 0, 0],
    mapping XAMARIN_IOS [0, 0, 0, 0] DOTNET [5, 6, 0, 0],
    mapping XAMARIN_MAC [0, 0, 0, 0] DOTNET [5, 6, 0, 0],
    mapping XAMARIN_TVOS [0, 0, 0, 0] DOTNET [5, 6, 0, 0],
    mapping XAMARIN_WATCHOS [0, 0, 0, 0] DOTNET [5, 6, 0, 0],
    mapping UAP [10, 0, 0, 0] WINDOWS [8, 1, 0, 0],
    mapping UAP [10, 0, 0, 0] WINDOWS_PHONE_APP [8, 1, 0, 0],
    mapping UAP [10, 0, 0, 0] WINRT [4, 5, 0, 0],
    mapping UAP [10, 0, 0, 0] NETCORE [5, 0, 0, 0],
    mapping UAP [10, 0, 0, 0] DOTNET [5, 5, 0, 0],
    mapping WINDOWS [0, 0, 0, 0] NET_STANDARD [1, 1, 0, 0],
    mapping WINDOWS [0, 0, 0, 0] DOTNET [5, 2, 0, 0],
    mapping WINDOWS [8, 1, 0, 0] DOTNET [5, 3, 0, 0],
    mapping WINDOWS_PHONE [8, 0, 0, 0] DOTNET [5, 1, 0, 0],
    mapping WINDOWS_PHONE [8, 1, 0, 0] DOTNET [5, 3, 0, 0],
    mapping WINDOWS_PHONE_APP [8, 1, 0, 0] DOTNET [5, 3, 0, 0],
    mapping NETCORE [5, 0, 0, 0] NET_STANDARD [1, 4, 0, 0],
    mapping NETCORE [5, 0, 0, 0] DOTNET [5, 5, 0, 0],
    mapping NETCORE [5, 0, 0, 0] WINDOWS [8, 1, 0, 0],
    mapping DNXCORE [5, 0, 0, 0] DOTNET [5, 6, 0, 0]]

def XAMARIN_PCL_PROFILES :
    List Nat :=
  [5, 6, 7, 14, 19, 24, 37, 42, 44, 47, 49, 78, 92, 102, 111, 136, 147, 151,
    158, 225, 255, 259, 328, 336, 344]

def PCL_NETSTANDARD :
    List (Nat × List Nat) :=
  [(7, [1, 1, 0, 0]),
    (31, [1, 0, 0, 0]),
    (32, [1, 2, 0, 0]),
    (44, [1, 2, 0, 0]),
    (49, [1, 0, 0, 0]),
    (78, [1, 0, 0, 0]),
    (84, [1, 0, 0, 0]),
    (111, [1, 1, 0, 0]),
    (151, [1, 2, 0, 0]),
    (157, [1, 0, 0, 0]),
    (259, [1, 0, 0, 0])]

def XAMARIN_FAMILY :
    List (List Char) :=
  [MONO_ANDROID, MONO_TOUCH, XAMARIN_IOS, XAMARIN_MAC, XAMARIN_TVOS,
    XAMARIN_WATCHOS]

/- No profile of its own: none, or `Client` or `Full` of .NETFramework. -/
def isProfileless
    (f : NuGetFramework) :
    Bool :=
  match f.profile with
  | none => true
  | some profile =>
      f.hasId NET_FRAMEWORK &&
        (eqIgnoreAsciiCase profile "Client".toList ||
          eqIgnoreAsciiCase profile "Full".toList)

/- `profiles_match`. -/
def profilesMatch
    (project candidate : NuGetFramework) :
    Bool :=
  (project.hasId NET_FRAMEWORK && isProfileless project &&
    (candidate.hasId NET_FRAMEWORK && isProfileless candidate)) ||
  eqOption project.profile candidate.profile

/- The frameworks the profile of a portable one names. -/
def memberTexts
    (profile : List Char) :
    List (List Char) :=
  match profileNumber profile with
  | some number => (profileMembers number).getD []
  | none => profile.splitOn '+'

/- `pcl_members`. -/
def pclMembers
    (candidate : NuGetFramework) :
    List NuGetFramework :=
  match candidate.profile with
  | none => []
  | some profile =>
      (memberTexts profile).filterMap fun text =>
        match parseFolder text with
        | .ok member =>
            if member.isSpecificFramework then some member else none
        | .error _ => none

/- `pcl_profile_number`. -/
def pclProfileNumber
    (candidate : NuGetFramework) :
    Option Nat :=
  candidate.profile.bind fun profile =>
    match profileNumber profile with
    | some number => some number
    | none =>
        profileOfMembers (sortDedup ((profile.splitOn '+').map fun part =>
          match parseShortText part with
          | .ok member =>
              if !member.isUnsupported then
                (folderName member).getD []
              else
                "unsupported".toList
          | .error _ => "unsupported".toList))

inductive Role
  | Project
  | Candidate
  deriving DecidableEq, Repr

/- `normalize`. -/
def normalize
    (f : NuGetFramework)
    (role : Role) :
    NuGetFramework :=
  if f.hasId NETCORE && decide (f.version ≤ [4, 5, 1, 0]) then
    { f with
      framework := WINDOWS
      version := if f.version = [4, 5, 1, 0] then [8, 1, 0, 0]
        else [8, 0, 0, 0] }
  else if f.hasId WINRT &&
      (role == .Project || decide (f.version ≤ [4, 5, 0, 0])) then
    { f with
      framework := WINDOWS
      version := [8, 0, 0, 0] }
  else if f.hasId UAP && decide (f.version < [10, 0, 0, 0]) then
    { f with version := [10, 0, 0, 0] }
  else if isZero f.version then
    if f.hasId WINDOWS then
      { f with version := [8, 0, 0, 0] }
    else if f.hasId WINDOWS_PHONE then
      { f with version := [7, 0, 0, 0] }
    else if f.hasId WINDOWS_PHONE_APP then
      { f with version := [8, 1, 0, 0] }
    else
      f
  else
    f

/- `translate`. -/
def translate
    (f : NuGetFramework) :
    NuGetFramework :=
  if f.hasId DNX then
    { f with framework := NET_FRAMEWORK }
  else if f.hasId ASPNET then
    { f with
      framework := NET_FRAMEWORK
      version := [4, 5, 0, 0] }
  else if f.hasId ASPNETCORE then
    { f with
      framework := DNXCORE
      version := [5, 0, 0, 0] }
  else
    f

/- The identifier a platform falls back to. -/
def platformFallback
    (project : NuGetFramework) :
    Option (List Char) :=
  project.platform.bind fun (name, _) =>
    if !project.hasId NET_CORE_APP then
      none
    else if eqIgnoreAsciiCase name "android".toList &&
        decide ([6, 0, 0, 0] ≤ project.version) then
      some MONO_ANDROID
    else if eqIgnoreAsciiCase name "tizen".toList &&
        decide ([6, 0, 0, 0] ≤ project.version) then
      some TIZEN
    else
      none

/- The rule for two frameworks of one identifier. -/
def sameIdentifier
    (project candidate : NuGetFramework) :
    Bool :=
  if project.hasId WINDOWS && decide (candidate.version ≤ [8, 0, 0, 0]) &&
      profilesMatch project candidate then
    true
  else if decide (project.version < candidate.version) ||
      !profilesMatch project candidate then
    false
  else
    match project.platform, candidate.platform with
    | _, none => true
    | none, some _ => false
    | some (name, version), some (name', version') =>
        eqIgnoreAsciiCase name name' && decide (version' ≤ version)

/- The netstandard ceiling of a portable project. -/
def pclCeiling
    (project : NuGetFramework) :
    Option (List Nat) :=
  (project.profile.bind profileNumber).bind fun number =>
    (PCL_NETSTANDARD.find? fun (n, _) => n == number).map Prod.snd

def mapped
    (project candidate : NuGetFramework) :
    Bool :=
  MAPPINGS.any fun entry =>
    project.hasId entry.project &&
      decide (entry.projectMin ≤ project.version) &&
      (match entry.projectMaxExcl with
      | none => true
      | some max => decide (project.version < max)) &&
      candidate.hasId entry.candidate &&
      decide (candidate.version ≤ entry.candidateMax)

/- The rules past the one for portable candidates; `candidate` is not
   portable. -/
def plainCompatible
    (project candidate : NuGetFramework) :
    Bool :=
  if eqIgnoreAsciiCase project.framework candidate.framework then
    sameIdentifier project candidate
  else if candidate.platform.isSome || candidate.profile.isSome then
    false
  else if project.isPcl then
    if candidate.hasId NET_STANDARD then
      match pclCeiling project with
      | some max => decide (candidate.version ≤ max)
      | none => false
    else
      false
  else if !isProfileless project then
    false
  else
    mapped project candidate

/- The families whose members accept each other before translation. -/
def legacyFamilies :
    List (List Char) :=
  ["dnx".toList, "dnxcore".toList, "asp.net".toList, "asp.netcore".toList]

/- `is_compatible`. -/
def isCompatibleFuel
    (fuel : Nat)
    (project candidate : NuGetFramework) :
    Bool :=
  match fuel with
  | 0 => false
  | fuel + 1 =>
      if candidate.isAny || project.isAny then
        true
      else if project.eq candidate then
        true
      else if candidate.hasId AGNOSTIC then
        project.isSpecificFramework
      else if project.isUnsupported || candidate.isUnsupported then
        false
      else if project.hasId WINRT && candidate.hasId WINRT then
        decide (candidate.version ≤
          if isZero project.version then [4, 5, 0, 0] else project.version)
      else
        let project := normalize project .Project
        let candidate := normalize candidate .Candidate
        if project.eq candidate then
          true
        else if eqIgnoreAsciiCase project.framework candidate.framework &&
            legacyFamilies.contains
              (toAsciiLowercase project.framework) then
          decide (candidate.version ≤ project.version) &&
            profilesMatch project candidate
        else if project.hasId DNX && candidate.hasId ASPNET then
          true
        else if project.hasId DNXCORE && candidate.hasId ASPNETCORE then
          true
        else
          let fallback := platformFallback project
          if fallback.any candidate.hasId then
            true
          else
            let project := translate project
            if project.eq candidate then
              true
            else if candidate.isPcl then
              let members := pclMembers candidate
              if members = [] then
                false
              else if project.isPcl then
                let projectMembers := pclMembers project
                projectMembers != [] && projectMembers.all fun p =>
                  members.any fun c => isCompatibleFuel fuel p c
              else if XAMARIN_FAMILY.any project.hasId ||
                  fallback == some MONO_ANDROID then
                (pclProfileNumber candidate).any
                  XAMARIN_PCL_PROFILES.contains
              else
                members.any fun member =>
                  isCompatibleFuel fuel project member
            else
              plainCompatible project candidate

/- `is_compatible` with fuel for the profile of the candidate. -/
def isCompatible
    (project candidate : NuGetFramework) :
    Bool :=
  isCompatibleFuel ((candidate.profile.getD []).length + 2) project candidate

end NuGet

end Borzoi
