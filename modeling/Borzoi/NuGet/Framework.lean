import Borzoi.NuGet.Package
import Mathlib.Data.List.Sort

/-
  Target frameworks and their short folder names.

  A portable framework holds a list of frameworks in its profile, so the
  parser and the printer call themselves and each other on its members;
  both go by fuel, and a member is shorter than the text it stands in.
-/

namespace Borzoi

namespace NuGet

namespace FrameworkId

def NET_FRAMEWORK := ".NETFramework".toList
def NET_CORE_APP := ".NETCoreApp".toList
def NET_STANDARD := ".NETStandard".toList
def PORTABLE := ".NETPortable".toList
def DOTNET := ".NETPlatform".toList
def UAP := "UAP".toList
def WINDOWS := "Windows".toList
def WINRT := "WinRT".toList
def WINDOWS_PHONE := "WindowsPhone".toList
def WINDOWS_PHONE_APP := "WindowsPhoneApp".toList
def SILVERLIGHT := "Silverlight".toList
def MONO_ANDROID := "MonoAndroid".toList
def MONO_TOUCH := "MonoTouch".toList
def MONO_MAC := "MonoMac".toList
def XAMARIN_IOS := "Xamarin.iOS".toList
def XAMARIN_MAC := "Xamarin.Mac".toList
def XAMARIN_TVOS := "Xamarin.TVOS".toList
def XAMARIN_WATCHOS := "Xamarin.WatchOS".toList
def DNX := "DNX".toList
def DNXCORE := "DNXCore".toList
def ASPNET := "ASP.NET".toList
def ASPNETCORE := "ASP.NETCore".toList
def NATIVE := "native".toList
def NETCORE := ".NETCore".toList
def NETMF := ".NETMicroFramework".toList
def NETNANO := ".NETnanoFramework".toList
def TIZEN := "Tizen".toList
def ANY := "Any".toList
def AGNOSTIC := "Agnostic".toList
def UNSUPPORTED := "Unsupported".toList

end FrameworkId

open FrameworkId

def SHORT_ALIASES :
    List (List Char × List Char) :=
  [("netframework".toList, NET_FRAMEWORK),
    ("netstandard".toList, NET_STANDARD),
    ("netcoreapp".toList, NET_CORE_APP),
    ("netcore".toList, NETCORE),
    ("netnano".toList, NETNANO),
    ("netmf".toList, NETMF),
    ("uap".toList, UAP),
    ("winrt".toList, WINRT),
    ("win".toList, WINDOWS),
    ("wpa".toList, WINDOWS_PHONE_APP),
    ("wp".toList, WINDOWS_PHONE),
    ("sl".toList, SILVERLIGHT),
    ("monoandroid".toList, MONO_ANDROID),
    ("monotouch".toList, MONO_TOUCH),
    ("monomac".toList, MONO_MAC),
    ("xamarinios".toList, XAMARIN_IOS),
    ("xamarin.ios".toList, XAMARIN_IOS),
    ("xamarinmac".toList, XAMARIN_MAC),
    ("xamarin.mac".toList, XAMARIN_MAC),
    ("xamarintvos".toList, XAMARIN_TVOS),
    ("xamarin.tvos".toList, XAMARIN_TVOS),
    ("xamarinwatchos".toList, XAMARIN_WATCHOS),
    ("xamarin.watchos".toList, XAMARIN_WATCHOS),
    ("dnxcore".toList, DNXCORE),
    ("dnx".toList, DNX),
    ("aspnetcore".toList, ASPNETCORE),
    ("aspnet".toList, ASPNET),
    ("dotnet".toList, DOTNET),
    ("native".toList, NATIVE),
    ("tizen".toList, TIZEN),
    ("any".toList, ANY),
    ("agnostic".toList, AGNOSTIC),
    ("unsupported".toList, UNSUPPORTED)]

def CANONICAL_IDENTIFIERS :
    List (List Char) :=
  [NET_FRAMEWORK, NET_CORE_APP, NET_STANDARD, PORTABLE, DOTNET, UAP,
    WINDOWS, WINRT, WINDOWS_PHONE, WINDOWS_PHONE_APP, SILVERLIGHT,
    MONO_ANDROID, MONO_TOUCH, MONO_MAC, XAMARIN_IOS, XAMARIN_MAC,
    XAMARIN_TVOS, XAMARIN_WATCHOS, DNX, DNXCORE, ASPNET, ASPNETCORE, NATIVE,
    NETCORE, NETMF, NETNANO, TIZEN, ANY, AGNOSTIC, UNSUPPORTED]

def PCL_PROFILES :
    List (Nat × List String) :=
  [(2, ["net40", "sl4", "win8", "wp7"]),
    (3, ["net40", "sl4"]),
    (4, ["net45", "sl4", "win8", "wp7"]),
    (5, ["net40", "win8"]),
    (6, ["net403", "win8"]),
    (7, ["net45", "win8"]),
    (14, ["net40", "sl5"]),
    (18, ["net403", "sl4"]),
    (19, ["net403", "sl5"]),
    (23, ["net45", "sl4"]),
    (24, ["net45", "sl5"]),
    (31, ["win81", "wp81"]),
    (32, ["win81", "wpa81"]),
    (36, ["net40", "sl4", "win8", "wp8"]),
    (37, ["net40", "sl5", "win8"]),
    (41, ["net403", "sl4", "win8"]),
    (42, ["net403", "sl5", "win8"]),
    (44, ["net451", "win81"]),
    (46, ["net45", "sl4", "win8"]),
    (47, ["net45", "sl5", "win8"]),
    (49, ["net45", "wp8"]),
    (78, ["net45", "win8", "wp8"]),
    (84, ["wp81", "wpa81"]),
    (88, ["net40", "sl4", "win8", "wp75"]),
    (92, ["net40", "win8", "wpa81"]),
    (95, ["net403", "sl4", "win8", "wp7"]),
    (96, ["net403", "sl4", "win8", "wp75"]),
    (102, ["net403", "win8", "wpa81"]),
    (104, ["net45", "sl4", "win8", "wp75"]),
    (111, ["net45", "win8", "wpa81"]),
    (136, ["net40", "sl5", "win8", "wp8"]),
    (143, ["net403", "sl4", "win8", "wp8"]),
    (147, ["net403", "sl5", "win8", "wp8"]),
    (151, ["net451", "win81", "wpa81"]),
    (154, ["net45", "sl4", "win8", "wp8"]),
    (157, ["win81", "wp81", "wpa81"]),
    (158, ["net45", "sl5", "win8", "wp8"]),
    (225, ["net40", "sl5", "win8", "wpa81"]),
    (240, ["net403", "sl5", "win8", "wpa81"]),
    (255, ["net45", "sl5", "win8", "wpa81"]),
    (259, ["net45", "win8", "wp8", "wpa81"]),
    (328, ["net40", "sl5", "win8", "wp8", "wpa81"]),
    (336, ["net403", "sl5", "win8", "wp8", "wpa81"]),
    (344, ["net45", "sl5", "win8", "wp8", "wpa81"])]

inductive FrameworkParseError
  | Invalid
  deriving DecidableEq, Repr

/- `to_ascii_lowercase`. -/
def toAsciiLowercase
    (s : List Char) :
    List Char :=
  s.map Char.toLower

def isAsciiAlphabetic
    (c : Char) :
    Bool :=
  ('a' ≤ c && c ≤ 'z') || ('A' ≤ c && c ≤ 'Z')

/- `str::strip_prefix`. -/
def afterHead
    (head s : List Char) :
    Option (List Char) :=
  if head.isPrefixOf s then
    some (s.drop head.length)
  else
    none

/- `str::parse::<u32>`. -/
def parseU32
    (text : List Char) :
    Option Nat :=
  let digits := (afterHead ['+'] text).getD text
  if digits = [] ∨ digits.all isAsciiDigit = false then
    none
  else if decimal digits < 2 ^ 32 then
    some (decimal digits)
  else
    none

/- `Profile` and a number. -/
def profileNumber
    (profile : List Char) :
    Option Nat :=
  (afterHead "profile".toList (toAsciiLowercase profile)).bind parseU32

/- The order of `str`. -/
def strLe
    (a b : List Char) :
    Bool :=
  (compare (a.map Char.toNat) (b.map Char.toNat)).isLE

/- `sort` and `dedup`. -/
def sortDedup
    (names : List (List Char)) :
    List (List Char) :=
  (names.mergeSort strLe).eraseReps

/- One component of a version. -/
def versionPart
    (part : List Char) :
    Option Nat :=
  if part = [] ∨ part.all isAsciiDigit = false ∨ 10 < part.length then
    none
  else if 2 ^ 31 - 1 < decimal part then
    none
  else
    some (decimal part)

/- At most four components, filled up with zeros. -/
def fillParts
    (parts : List (List Char)) :
    Option (List Nat) :=
  if parts = [] ∨ 4 < parts.length then
    none
  else
    (parts.mapM versionPart).map fun version =>
      version ++ List.replicate (4 - version.length) 0

/- `parse_dotted_version`. -/
def parseDottedVersion
    (text : List Char) :
    Option (List Nat) :=
  fillParts (text.splitOn '.')

/- `parse_short_version`. -/
def parseShortVersion
    (text : List Char) :
    Option (List Nat) :=
  if text = [] then
    some [0, 0, 0, 0]
  else if '.' ∈ text then
    parseDottedVersion text
  else if text.all isAsciiDigit = false then
    none
  else
    let digits := (text.take 4).map fun c => c.toNat - '0'.toNat
    some (digits ++ List.replicate (4 - digits.length) 0)

/- The number of components left without the zeros at the end, down to
   `least`. -/
def lastPart
    (least : Nat)
    (version : List Nat) :
    Nat → Nat
  | 0 => 0
  | last + 1 =>
      if least < last + 1 ∧ version.getD last 0 = 0 then
        lastPart least version last
      else
        last + 1

def keptParts
    (least : Nat)
    (version : List Nat) :
    List Nat :=
  version.take (lastPart least version 4)

def dotted
    (version : List Nat)
    (least : Nat) :
    List Char :=
  List.intercalate ['.'] ((keptParts least version).map (Nat.toDigits 10))

/- `digit_concat` and `tail1` past their test for zero. -/
def concatParts
    (least : Nat)
    (version : List Nat) :
    List Char :=
  let parts := keptParts least version
  if parts.any fun part => 9 < part then
    dotted version 2
  else
    parts.flatMap (Nat.toDigits 10)

def digitConcat
    (version : List Nat) :
    List Char :=
  concatParts 2 version

def isZero
    (version : List Nat) :
    Bool :=
  version == [0, 0, 0, 0]

def tail1
    (version : List Nat) :
    List Char :=
  if isZero version then [] else concatParts 1 version

def tail2
    (version : List Nat) :
    List Char :=
  if isZero version then [] else digitConcat version

def dottedTail
    (version : List Nat) :
    List Char :=
  if isZero version then [] else dotted version 2

def unsupported :
    NuGetFramework :=
  ⟨UNSUPPORTED, [0, 0, 0, 0], none, none⟩

namespace NuGetFramework

def hasId
    (f : NuGetFramework)
    (identifier : List Char) :
    Bool :=
  eqIgnoreAsciiCase f.framework identifier

def isAny
    (f : NuGetFramework) :
    Bool :=
  f.hasId ANY

def isUnsupported
    (f : NuGetFramework) :
    Bool :=
  f.hasId UNSUPPORTED

def isSpecificFramework
    (f : NuGetFramework) :
    Bool :=
  !f.isAny && !f.isUnsupported && !f.hasId AGNOSTIC

def major
    (f : NuGetFramework) :
    Nat :=
  f.version.getD 0 0

def isPcl
    (f : NuGetFramework) :
    Bool :=
  f.hasId PORTABLE && decide (f.major < 5)

/- Two optional texts, without regard to case. -/
def eqOption :
    Option (List Char) → Option (List Char) → Bool
  | none, none => true
  | some a, some b => eqIgnoreAsciiCase a b
  | _, _ => false

def eqPlatform :
    Option (List Char × List Nat) → Option (List Char × List Nat) → Bool
  | none, none => true
  | some (a, v), some (b, w) => eqIgnoreAsciiCase a b && v == w
  | _, _ => false

/- `PartialEq::eq`. -/
def eq
    (a b : NuGetFramework) :
    Bool :=
  eqIgnoreAsciiCase a.framework b.framework && a.version == b.version &&
    eqPlatform a.platform b.platform && eqOption a.profile b.profile

end NuGetFramework

/- `canonical_profile`. -/
def canonicalProfile
    (profile : List Char) :
    Option (List Char) :=
  let lower := toAsciiLowercase profile
  if lower = "full".toList then
    none
  else if lower = "client".toList then
    some "Client".toList
  else if lower = "cf".toList then
    some "CompactFramework".toList
  else
    match afterHead "wp".toList lower with
    | some rest => some ("WindowsPhone".toList ++ rest)
    | none => some profile

/- `profile_short`. -/
def profileShort
    (profile : List Char) :
    List Char :=
  if eqIgnoreAsciiCase profile "CompactFramework".toList then
    "cf".toList
  else
    match afterHead "windowsphone".toList (toAsciiLowercase profile) with
    | some rest => "wp".toList ++ rest
    | none => toAsciiLowercase profile

/- `member_default_version`. -/
def memberDefaultVersion
    (framework : List Char) :
    List Nat :=
  if framework = WINDOWS then [8, 0, 0, 0]
  else if framework = WINDOWS_PHONE then [7, 0, 0, 0]
  else if framework = WINDOWS_PHONE_APP then [8, 1, 0, 0]
  else [0, 0, 0, 0]

/- `default_version`. -/
def defaultVersion
    (framework : List Char) :
    List Nat :=
  if framework = DOTNET then [5, 0, 0, 0] else [0, 0, 0, 0]

/- The known profile with these members. -/
def profileOfMembers
    (members : List (List Char)) :
    Option Nat :=
  (PCL_PROFILES.find? fun (_, table) =>
    table.length == members.length &&
      (table.zip members).all fun (a, b) =>
        eqIgnoreAsciiCase a.toList b).map Prod.fst

def profileMembers
    (number : Nat) :
    Option (List (List Char)) :=
  (PCL_PROFILES.find? fun (n, _) => n == number).map fun (_, members) =>
    members.map String.toList

------------------------------------------------------------
-- Short names
------------------------------------------------------------

/- The identifier and the version of a short name; nothing is an
   unsupported framework. -/
def shortIdentifier
    (name versionText : List Char)
    (suffix : Option (List Char)) :
    Option (List Char × List Nat) :=
  let impliedNet := name == [] &&
    (["20", "35", "40", "45", "2.0", "3.5", "4.0", "4.5"].map
      String.toList).contains versionText
  if name == [] && !impliedNet then
    none
  else if name == "net".toList || impliedNet then
    (parseShortVersion versionText).map fun version =>
      if 5 ≤ version.getD 0 0 then
        (NET_CORE_APP, version)
      else
        (NET_FRAMEWORK, version)
  else
    let canonical :=
      ((SHORT_ALIASES.find? fun (a, _) => a == name).map Prod.snd).or
        (CANONICAL_IDENTIFIERS.find? fun c => eqIgnoreAsciiCase c name)
    canonical.bind fun canonical =>
      if [ANY, AGNOSTIC, UNSUPPORTED].contains canonical &&
          (versionText != [] || suffix.isSome) then
        none
      else
        (parseShortVersion versionText).map fun version =>
          if versionText == [] && suffix.isNone then
            (canonical, defaultVersion canonical)
          else
            (canonical, version)

/- The platform behind the first dash of a modern name. -/
def shortPlatform
    (original suffix : List Char) :
    Option (List Char × List Nat) :=
  let name := suffix.takeWhile isAsciiAlphabetic
  let version := suffix.dropWhile isAsciiAlphabetic
  if name = [] then
    none
  else if version = [] then
    some (original.take name.length, [0, 0, 0, 0])
  else if version.head?.any isAsciiDigit then
    (parseDottedVersion version).map (original.take name.length, ·)
  else
    none

/- The bytes a profile may have. -/
def isProfileByte
    (c : Char) :
    Bool :=
  isAsciiAlphabetic c || isAsciiDigit c || c == '.' || c == '-' || c == '+'

/- `parse_short` of a name that is not portable; `lower` is the name in
   lower case. -/
def parseShortPlain
    (input lower : List Char) :
    NuGetFramework :=
  let isNameByte := fun c => isAsciiAlphabetic c || c == '.'
  let name := lower.takeWhile isNameByte
  let rest := lower.dropWhile isNameByte
  let name := if name = ".net".toList then "net".toList else name
  let versionText := rest.takeWhile (· != '-')
  let suffix := if '-' ∈ rest then some (rest.dropWhile (· != '-')).tail
    else none
  match shortIdentifier name versionText suffix with
  | none => unsupported
  | some (framework, version) =>
      match suffix with
      | none => ⟨framework, version, none, none⟩
      | some suffix =>
          let original := input.drop (input.length - suffix.length)
          if framework = NET_CORE_APP ∧ 5 ≤ version.getD 0 0 then
            match shortPlatform original suffix with
            | some platform => ⟨framework, version, some platform, none⟩
            | none => unsupported
          else if suffix = [] ∨ suffix.all isProfileByte = false then
            unsupported
          else
            ⟨framework, version, none, canonicalProfile original⟩

/- What stands behind `portable` in a name in lower case. -/
def portableTail
    (lower : List Char) :
    Option (List Char) :=
  (afterHead "portable".toList lower).or
    (afterHead "netportable".toList lower)

inductive TailStyle
  | One
  | Two
  | Dotted
  deriving DecidableEq, Repr

def TailStyle.render :
    TailStyle → List Nat → List Char
  | One => tail1
  | Two => tail2
  | Dotted => dottedTail

/- The families that print their name and a version. -/
def FOLDER_FAMILIES :
    List (List Char × String × TailStyle) :=
  [(NET_FRAMEWORK, "net", .Two),
    (NET_STANDARD, "netstandard", .Dotted),
    (UAP, "uap", .Two),
    (WINDOWS, "win", .One),
    (WINRT, "winrt", .Two),
    (WINDOWS_PHONE, "wp", .One),
    (WINDOWS_PHONE_APP, "wpa", .Two),
    (SILVERLIGHT, "sl", .One),
    (MONO_ANDROID, "monoandroid", .Two),
    (MONO_TOUCH, "monotouch", .Two),
    (MONO_MAC, "monomac", .Two),
    (XAMARIN_IOS, "xamarinios", .Two),
    (XAMARIN_MAC, "xamarinmac", .Two),
    (XAMARIN_TVOS, "xamarintvos", .Two),
    (XAMARIN_WATCHOS, "xamarinwatchos", .Two),
    (DNX, "dnx", .Two),
    (DNXCORE, "dnxcore", .Two),
    (ASPNET, "aspnet", .Two),
    (ASPNETCORE, "aspnetcore", .Two),
    (NATIVE, "native", .Two),
    (NETCORE, "netcore", .Two),
    (NETMF, "netmf", .Two),
    (NETNANO, "netnano", .Dotted),
    (TIZEN, "tizen", .Two)]

/- The name of a `.NETCoreApp` without its profile. -/
def coreAppName
    (f : NuGetFramework) :
    List Char :=
  if 5 ≤ f.major then
    "net".toList ++ dotted f.version 2 ++
      match f.platform with
      | none => []
      | some (platform, version) =>
          '-' :: toAsciiLowercase platform ++ dottedTail version
  else
    "netcoreapp".toList ++ dottedTail f.version

/- The name of a framework that is not portable, without its profile. -/
def baseName
    (f : NuGetFramework) :
    Option (List Char) :=
  match FOLDER_FAMILIES.find? fun (identifier, _) => f.hasId identifier with
  | some (_, name, style) => some (name.toList ++ style.render f.version)
  | none =>
      if f.hasId NET_CORE_APP then
        some (coreAppName f)
      else if f.hasId DOTNET then
        if isZero f.version ||
            (f.version == [5, 0, 0, 0] && f.profile.isNone) then
          some "dotnet".toList
        else
          some ("dotnet".toList ++ digitConcat f.version)
      else if f.hasId ANY then
        some "any".toList
      else if f.hasId AGNOSTIC then
        some "agnostic".toList
      else if f.hasId UNSUPPORTED then
        some "unsupported".toList
      else
        let sanitized := (toAsciiLowercase f.framework).filter fun c =>
          isAsciiAlphabetic c || isAsciiDigit c
        if sanitized = [] then
          none
        else
          some (sanitized ++ tail2 f.version)

/- The profile a name shows behind a dash. -/
def shownProfile
    (f : NuGetFramework) :
    List Char :=
  if f.hasId NET_CORE_APP && decide (5 ≤ f.major) then
    []
  else
    match f.profile with
    | none => []
    | some profile => '-' :: profileShort profile

mutual

/- `parse_short`. -/
def parseShort
    (fuel : Nat)
    (input : List Char) :
    Except FrameworkParseError NuGetFramework :=
  match fuel with
  | 0 => .ok unsupported
  | fuel + 1 =>
      if input = [] ∨ input.any isWhitespace then
        .ok unsupported
      else
        match portableTail (toAsciiLowercase input) with
        | none => .ok (parseShortPlain input (toAsciiLowercase input))
        | some rest =>
            let isVersion := fun c => isAsciiDigit c || c == '.'
            match rest.dropWhile isVersion with
            | '-' :: list =>
                match parseShortVersion (rest.takeWhile isVersion) with
                | none => .ok unsupported
                | some version =>
                    parsePortable fuel version
                      (input.drop (input.length - list.length))
            | _ => .ok unsupported

/- `parse_portable`. -/
def parsePortable
    (fuel : Nat)
    (version : List Nat)
    (list : List Char) :
    Except FrameworkParseError NuGetFramework :=
  let pcl := fun profile : List Char =>
    (⟨PORTABLE, version, none, some profile⟩ : NuGetFramework)
  match fuel with
  | 0 => .ok unsupported
  | fuel + 1 =>
      if list = [] then
        .ok unsupported
      else if (profileNumber list).isSome then
        .ok (pcl list)
      else do
        let members ←
          ((list.splitOn '+').filter (· != [])).mapM fun part => do
            let f ← parseShort fuel part
            if f.profile.isSome then
              .error .Invalid
            else
              let f := if isZero f.version then
                  { f with version := memberDefaultVersion f.framework }
                else f
              .ok (if f.isUnsupported then
                  "unsupported".toList
                else
                  (shortFolderName fuel f).getD "unsupported".toList)
        match profileOfMembers (sortDedup members) with
        | some number =>
            .ok (pcl ("Profile".toList ++ Nat.toDigits 10 number))
        | none => .ok (pcl list)

/- `short_folder_name`. -/
def shortFolderName
    (fuel : Nat)
    (f : NuGetFramework) :
    Option (List Char) :=
  match fuel with
  | 0 => none
  | fuel + 1 =>
      if !f.hasId PORTABLE then
        (baseName f).map (· ++ shownProfile f)
      else
        let name := "portable".toList ++ tail2 f.version
        match f.profile.filter (· != []) with
        | none => if 5 ≤ f.major then some name else none
        | some profile =>
            match profileNumber profile with
            | some number =>
                if f.isPcl then
                  (profileMembers number).map fun members =>
                    name ++ '-' :: List.intercalate ['+'] members
                else
                  some (name ++ '-' :: toAsciiLowercase profile)
            | none =>
                let members := (profile.splitOn '+').map fun part =>
                  match parseShort fuel part with
                  | .ok member =>
                      if !member.isUnsupported then
                        (shortFolderName fuel member).getD
                          "unsupported".toList
                      else
                        "unsupported".toList
                  | .error _ => "unsupported".toList
                let members := if f.isPcl then sortDedup members
                  else members
                some (name ++ '-' :: List.intercalate ['+'] members)

end

namespace NuGetFramework

/- `parse_short` with fuel for its text. -/
def parseShortText
    (input : List Char) :
    Except FrameworkParseError NuGetFramework :=
  parseShort (input.length + 1) input

/- `parse_folder`. -/
def parseFolder
    (input : List Char) :
    Except FrameworkParseError NuGetFramework :=
  if ',' ∈ input then
    .ok unsupported
  else
    parseShortText input

/- `short_folder_name` with fuel for the profile. -/
def folderName
    (f : NuGetFramework) :
    Option (List Char) :=
  shortFolderName ((f.profile.getD []).length + 2) f

end NuGetFramework

end NuGet

end Borzoi
