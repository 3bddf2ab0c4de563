import Vle.Lib.InStream
import Vle.Utils.PackageId
import Mathlib.Data.List.DropRight

/-!
# The parser of package databases

`DescriptionParser`, function by function, over a stream. A function that returns false is a reader
that fails. The loops whose number of turns is not read off the text have a fuel, which the length of
the text is enough for. The line and the column, which only go into the text of the exception, are
left out.
-/

namespace Vle.Utils

open Vle.Lib Vle.Lib.Reader

/-- The white space of the C locale. -/
def isspace (c : Char) : Bool := c ∈ [' ', '\t', '\n', '\x0b', '\x0c', '\r']

def isblank (c : Char) : Bool := c ∈ [' ', '\t']

/-- The characters after the first one of an identifier. -/
def isIdentifierChar (c : Char) : Bool := c.isAlphanum || c = '_' || c = '.' || c = '-'

/-- `boost::trim`. -/
def trim (l : List Char) : List Char := (l.dropWhile isspace).rdropWhile isspace

/-- The digits as a number. -/
def stoi (str : List Char) : ℤ := Nat.ofDigitChars 10 str 0

namespace DescriptionParser

/-- The loops of `read_newline`, `read_blank` and `read_space`, which fail at the end of the stream. -/
def skip (p : Char → Bool) : Reader Unit := do
  skipWhile p
  Reader.guard (← isGood)
  Reader.unget

def readNewline : Reader Unit := do
  skip isblank
  Reader.guard ((← getc) = some '\n')

def readBlank : Reader Unit := skip isblank

def readSpace : Reader Unit := skip isspace

/-- The loop of `read_word`. -/
def readChars : List Char → Reader Unit
  | [] => pure ()
  | c :: str => do
    Reader.guard (← isGood)
    Reader.guard ((← getc) = some c)
    readChars str

def readWord (str : String) : Reader Unit := do
  readBlank
  readChars str.toList

def readIdentifier : Reader String := do
  readBlank
  match ← getc with
  | some c =>
    Reader.guard c.isAlphanum
    let (str, _) ← getUntil fun c => !c.any isIdentifierChar
    Reader.unget
    return String.ofList (c :: str)
  | none => fail

/-- A number, by `std::stoi`, which throws when there is no digit or when it is too large. -/
def readInteger : Reader ℤ := do
  readBlank
  let (str, _) ← getUntil fun c => !c.any Char.isDigit
  Reader.unget
  Reader.guard (str ≠ [] ∧ stoi str < 2 ^ 31)
  return stoi str

def readVersion : Reader (ℤ × ℤ × ℤ) := do
  readBlank
  let major ← readInteger
  readWord "."
  let minor ← readInteger
  readWord "."
  let patch ← readInteger
  readNewline
  return (major, minor, patch)

def readOperator : Reader PackageOperatorType := do
  readBlank
  match ← getc with
  | some '=' => return .equal
  | some '<' =>
    if (← getc) = some '=' then return .lessOrEqual
    Reader.unget
    return .less
  | some '>' =>
    if (← getc) = some '=' then return .greaterOrEqual
    Reader.unget
    return .greater
  | _ => fail

/-- What is read of the numbers of a version after the first. When the minor number is missing, the
character in its place is not put back. -/
def readMinor : Reader (ℤ × ℤ) := do
  if ← succeeds (readWord ".") then
    let minor ← readInteger
    if ← succeeds (readWord ".") then
      let patch ← readInteger
      return (minor, patch)
    else
      Reader.unget
      return (minor, -1)
  else
    return (-1, -1)

/-- What is read of a link after `(`. -/
def readConstraint (name : String) : Reader PackageLinkId := do
  let op ← readOperator
  let major ← readInteger
  let (minor, patch) ← readMinor
  readWord ")"
  return { name, major, minor, patch, op }

/-- One link of `read_linkid`. -/
def readLink : Reader PackageLinkId := do
  let name ← readIdentifier
  if ← succeeds (readWord "(") then
    readConstraint name
  else
    Reader.unget
    return { name }

/-- The loop of `read_linkid`. -/
def linkLoop : ℕ → PackagesLinkId → Reader PackagesLinkId
  | 0, _ => fail
  | fuel + 1, pkgs => do
    let pkg ← readLink
    let pkgs := pkgs ++ [pkg]
    let next : Reader PackagesLinkId := do
      if ← isGood then linkLoop fuel pkgs else return pkgs
    if ← succeeds (readWord ",") then
      next
    else
      Reader.unget
      if ← succeeds readNewline then
        return pkgs
      else
        Reader.unget
        next

def readLinkid : Reader PackagesLinkId := do
  readBlank
  if ← succeeds readNewline then
    -- The lists can be empty.
    return []
  else
    Reader.unget
    fun s => linkLoop (s.after.length + 1) [] s

/-- `read_maintainer`, which also reads the url and the sum. -/
def readMaintainer : Reader String := do
  readBlank
  let (str, _) ← getUntil fun c => c = some '\n' ∨ c = some '\r'
  let maintainer := trim str
  Reader.guard (maintainer ≠ [])
  return String.ofList maintainer

/-- The character that `get` gives, as it is appended. -/
def charOf (c : Option Char) : Char := c.getD InStream.eofChar

/-- The loop of `read_description`. After the end of a line, `" ."` ends the description; otherwise
the next character, or the one after a space, comes before the end of the line. -/
def descriptionLoop : ℕ → List Char → Reader (List Char)
  | 0, _ => fail
  | fuel + 1, description => do
    let c ← getc
    let next (description : List Char) : Reader (List Char) := do
      if ← isGood then descriptionLoop fuel (description ++ [charOf c])
      else return description ++ [charOf c]
    if c = some '\n' ∨ c = some '\r' then
      -- The stream is good, since it has given `c`.
      let c2 ← getc
      if c2 = some ' ' then
        let c3 ← getc
        if c3 = some '.' then
          return description
        else
          next (description ++ [charOf c3])
      else
        next (description ++ [charOf c2])
    else
      next description

def readDescription : Reader String := do
  readBlank
  let description ← fun s => descriptionLoop (s.after.length + 1) [] s
  readNewline
  return String.ofList (trim description)

/-- Keep a tag, unless there is nothing but white space. -/
def pushTag (tags : Tags) (str : List Char) : Tags :=
  if trim str = [] then tags else tags ++ [String.ofList (trim str)]

/-- The loop of `read_tags`: a line that does not end is refused. -/
def tagLoop : ℕ → Tags → Reader Tags
  | 0, _ => fail
  | fuel + 1, tags => do
    let r ← getUntil fun c => c = some ',' ∨ c = some '\n'
    if r.2 = some '\n' then
      return pushTag tags r.1
    else if r.2 = some ',' then
      tagLoop fuel (pushTag tags r.1)
    else
      fail

def readTags : Reader Tags := do
  readBlank
  fun s => tagLoop (s.after.length + 1) [] s

/-- A number, by `std::stol`. -/
def readSize : Reader ℕ := do
  readBlank
  let (str, _) ← getUntil fun c => !c.any Char.isDigit
  Reader.guard (str ≠ [] ∧ stoi str < 2 ^ 63)
  return Nat.ofDigitChars 10 str 0

/-- What a line starts with, then the rest of the line. -/
def field {α : Type} (word : String) (f : Reader α) : Reader α := do
  readWord word
  f

/-- The next of the fields of a record, or the number of the field that cannot be read. -/
def orElse {α β : Type} (code : ℤ) (f : Reader α) (next : α → InStream → Except ℤ β × InStream) :
    InStream → Except ℤ β × InStream := fun s =>
  match f s with
  | (some a, s') => next a s'
  | (none, s') => (.error code, s')

/-- The fields of a record, in the order in which they are read. -/
def readFields (pkg : PackageId) : InStream → Except ℤ PackageId × InStream :=
  orElse (-1) (do let name ← field "Package:" readIdentifier; readNewline; return name) fun name =>
  orElse (-2) (field "Version:" readVersion) fun (major, minor, patch) =>
  orElse (-3) (field "Depends:" readLinkid) fun depends =>
  orElse (-4) (field "Build-Depends:" readLinkid) fun builddepends =>
  orElse (-5) (field "Conflicts:" readLinkid) fun conflicts =>
  orElse (-6) (field "Maintainer:" readMaintainer) fun maintainer =>
  orElse (-7) (field "Description:" readDescription) fun description =>
  orElse (-8) (field "Tags:" readTags) fun tags =>
  orElse (-9) (field "Url:" readMaintainer) fun url =>
  orElse (-10) (field "Size:" readSize) fun size =>
  orElse (-11) (field "MD5sum:" readMaintainer) fun md5sum s =>
    (.ok { pkg with
      name, major, minor, patch, depends, builddepends, conflicts
      maintainer, description, tags, url, size, md5sum }, s)

/-- `read_package`: a record, or none at the end of the stream, or the code of an error. -/
def readPackage (pkg : PackageId) (s : InStream) : Except ℤ (Option PackageId) × InStream :=
  let (r, s) := readSpace s
  if r.isNone && s.eof then
    (.ok none, s)
  else
    let (r, s) := readFields pkg s
    (r.map some, s)

/-- Why `read_packages` stops before the end: the code in the text of the exception. `outOfFuel` is no
outcome of the code. -/
inductive Failure where
  | fileError (code : ℤ)
  | outOfFuel
  deriving DecidableEq, Repr

/-- The loop of `read_packages`: the records that it pushes, and the exception it throws if it does. -/
def packagesLoop (distribution : String) : ℕ → InStream → List PackageId × Option Failure
  | 0, _ => ([], some .outOfFuel)
  | fuel + 1, s =>
    match readPackage { distribution } s with
    | (.ok (some p), s) =>
      if s.fail then ([p], none)
      else
        let (pkgs, failure) := packagesLoop distribution fuel s
        (p :: pkgs, failure)
    | (.ok none, _) => ([], none)
    | (.error code, _) => ([], some (.fileError code))

end DescriptionParser

/-- `PackageParser::extract`, on the text of a file. -/
def extract (distribution : String) (text : List Char) :
    List PackageId × Option DescriptionParser.Failure :=
  DescriptionParser.packagesLoop distribution (text.length + 1) (.good [] text)

end Vle.Utils
