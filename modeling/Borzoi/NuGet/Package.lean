import Borzoi.NuGet.Range
import Borzoi.Program.SortedMap

/-
  Packages and the global packages folder.

  Ids are compared ignoring case, and are kept in lower case here.  The
  folder of an identity is named by its id and by the normalized text of
  its version, and that pair is all a read depends on.
-/

namespace Borzoi

namespace NuGet

/- The text of an id in lower case. -/
abbrev PackageId :=
  List Char

structure PackageIdentity where
  id : PackageId
  version : NuGetVersion
  deriving DecidableEq, Repr

namespace PackageIdentity

/- `version_folder_name`. -/
def versionFolderName
    (identity : PackageIdentity) :
    List Char :=
  identity.version.toNormalizedString.map Char.toLower

/- `PartialEq::eq`. -/
def eq
    (a b : PackageIdentity) :
    Bool :=
  decide (a.id = b.id) && a.version.eqStrict b.version

end PackageIdentity

/- A dependency of a nuspec. -/
structure PackageDependency where
  id : PackageId
  versionRange : Option VersionRange
  includes : Option (List Char)
  excludes : Option (List Char)
  deriving DecidableEq, Repr

structure PackagePaths where
  packageDir : List Char
  metadataPath : List Char
  nuspecPath : List Char
  deriving DecidableEq, Repr

/- A package that was read, with its dependencies for the framework of
   the project. -/
structure CachedPackage where
  paths : PackagePaths
  dependencies : List PackageDependency

/- The global packages folder as a framework sees it, with `E` for what
   a failed read says. -/
structure Folder
    (E : Type) where
  read : PackageId → List Char → Except E CachedPackage
  committed : PackageId → List Char → Except E Bool

namespace Folder

variable {E : Type}

/- What the folder has for an identity. -/
def entry
    (folder : Folder E)
    (identity : PackageIdentity) :
    Except E CachedPackage :=
  folder.read identity.id identity.versionFolderName

/- `PackageCache::get`. -/
def get
    (folder : Folder E)
    (identity : PackageIdentity) :
    Option CachedPackage :=
  (folder.entry identity).toOption

/- `PackageCache::take_error`. -/
def takeError
    (folder : Folder E)
    (identity : PackageIdentity) :
    Option E :=
  match folder.entry identity with
  | .error e => some e
  | .ok _ => none

/- `PackageCache::is_committed`. -/
def isCommitted
    (folder : Folder E)
    (identity : PackageIdentity) :
    Except E Bool :=
  if (folder.get identity).isSome then
    .ok true
  else
    folder.committed identity.id identity.versionFolderName

end Folder

structure NuGetFramework where
  framework : List Char
  version : List Nat
  platform : Option (List Char × List Nat)
  profile : Option (List Char)
  deriving DecidableEq, Repr

/- `is_resolver_project_framework`. -/
def NuGetFramework.isResolverProjectFramework
    (f : NuGetFramework) :
    Bool :=
  f.framework == ".NETFramework".toList ||
    f.framework == ".NETCoreApp".toList ||
    f.framework == ".NETStandard".toList

end NuGet

end Borzoi
