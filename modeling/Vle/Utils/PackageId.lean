import Mathlib.Tactic

/-!
# Packages

The records of the package databases, and the text that `operator<<` writes for them. A version number
that is not defined is `-1`.
-/

namespace Vle.Utils

/-- The relation of a package with the version that a link names. -/
inductive PackageOperatorType where
  | equal
  | less
  | lessOrEqual
  | greater
  | greaterOrEqual
  deriving DecidableEq, Repr

/-- A package in a `depends`, `builddepends` or `conflicts` list; the values are those of `cleanup`. -/
structure PackageLinkId where
  name : String := ""
  major : ℤ := -1
  minor : ℤ := -1
  patch : ℤ := -1
  op : PackageOperatorType := .equal
  deriving DecidableEq, Repr

abbrev PackagesLinkId := List PackageLinkId

abbrev Tags := List String

/-- A record of a package database; the values are those of `cleanup`. -/
structure PackageId where
  size : ℕ := 0
  name : String := ""
  distribution : String := ""
  maintainer : String := ""
  description : String := ""
  url : String := ""
  md5sum : String := ""
  tags : Tags := []
  depends : PackagesLinkId := []
  builddepends : PackagesLinkId := []
  conflicts : PackagesLinkId := []
  major : ℤ := -1
  minor : ℤ := -1
  patch : ℤ := -1
  deriving DecidableEq, Repr

/-- `PackageIdUpdate`: whether `rhs` is a more recent version of the same package. -/
def packageIdUpdate (lhs rhs : PackageId) : Bool :=
  if lhs.name ≠ rhs.name then false
  else if rhs.major > lhs.major then true
  else if rhs.major < lhs.major then false
  else if rhs.minor > lhs.minor then true
  else if rhs.minor < lhs.minor then false
  else if rhs.patch > lhs.patch then true
  else false

/-! ## Writing -/

/-- A number, as a stream prints it. -/
def printed (n : ℤ) : List Char := (toString n).toList

/-- The texts of the operators. -/
def PackageOperatorType.sym : PackageOperatorType → List Char
  | equal => ['=']
  | less => ['<']
  | lessOrEqual => ['<', '=']
  | greater => ['>']
  | greaterOrEqual => ['>', '=']

/-- What a link writes after the name of its package. -/
def PackageLinkId.constraint (b : PackageLinkId) : List Char :=
  if 0 ≤ b.major then
    " (".toList ++ b.op.sym ++ " ".toList ++ printed b.major ++
      (if 0 ≤ b.minor then
        ".".toList ++ printed b.minor ++
          (if 0 ≤ b.patch then ".".toList ++ printed b.patch else [])
      else []) ++ ")".toList
  else []

/-- `operator<<` of a link. -/
def PackageLinkId.write (b : PackageLinkId) : List Char := b.name.toList ++ b.constraint

/-- `formatCopy` with `", "` in the middle. -/
def formatCopy (l : List (List Char)) : List Char := (", ".toList).intercalate l

/-- `operator<<` of a list of links. -/
def writeLinks (b : PackagesLinkId) : List Char := formatCopy (b.map PackageLinkId.write)

/-- `operator<<` of a record. -/
def PackageId.write (b : PackageId) : List Char :=
  "Package: ".toList ++ b.name.toList ++ "\n".toList ++
  "Version: ".toList ++ printed b.major ++ ".".toList ++ printed b.minor ++ ".".toList ++
    printed b.patch ++ "\n".toList ++
  "Depends: ".toList ++ writeLinks b.depends ++ "\n".toList ++
  "Build-Depends: ".toList ++ writeLinks b.builddepends ++ "\n".toList ++
  "Conflicts: ".toList ++ writeLinks b.conflicts ++ "\n".toList ++
  "Maintainer: ".toList ++ b.maintainer.toList ++ "\n".toList ++
  "Description: ".toList ++ b.description.toList ++ "\n .\n".toList ++
  "Tags: ".toList ++ formatCopy (b.tags.map String.toList) ++ "\n".toList ++
  "Url: ".toList ++ b.url.toList ++ "\n".toList ++
  "Size: ".toList ++ printed b.size ++ "\n".toList ++
  "MD5sum: ".toList ++ b.md5sum.toList ++ "\n".toList

end Vle.Utils
