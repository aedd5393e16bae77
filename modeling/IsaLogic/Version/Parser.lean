import IsaLogic.Text.Blank
import IsaLogic.Text.Integer
import IsaLogic.Text.Quoted
import IsaLogic.Version.Basic

/-!
# Reading versions and requirements

A version is read as number, point, number, point, number, then an optional
pre-release after `-` and optional metadata after `+`, and must end there.
Specifications often leave out trailing numbers, so `Version.parse` fills them
with zeros first. A requirement is an operator and a version; without an
operator it means exactly that version.
-/

namespace IsaLogic

/-- The part of a version being read. -/
inductive VersionPart where
  | major
  | minor
  | patch
  | pre
  | build
deriving DecidableEq, Repr

namespace VersionPart

/-- How messages call the part. -/
def label : VersionPart → String
  | major => "major version number"
  | minor => "minor version number"
  | patch => "patch version number"
  | pre => "pre-release identifier"
  | build => "build metadata"

end VersionPart

/-- Why a text is no version. -/
inductive VersionError where
  | empty
  | unexpectedEnd (part : VersionPart)
  | unexpectedChar (part : VersionPart) (found : Char)
  | unexpectedCharAfter (part : VersionPart) (found : Char)
  | leadingZero (part : VersionPart)
  | overflow (part : VersionPart)
  | emptySegment (part : VersionPart)
deriving DecidableEq, Repr

namespace VersionError

/-- The wording of the error. -/
def message : VersionError → String
  | empty => "empty string, expected a semver version"
  | unexpectedEnd part => "unexpected end of input while parsing " ++ part.label
  | unexpectedChar part found =>
    "unexpected character " ++ Text.quoteChar found ++ " while parsing " ++ part.label
  | unexpectedCharAfter part found =>
    "unexpected character " ++ Text.quoteChar found ++ " after " ++ part.label
  | leadingZero part => "invalid leading zero in " ++ part.label
  | overflow part => "value of " ++ part.label ++ " exceeds u64::MAX"
  | emptySegment part => "empty identifier segment in " ++ part.label

end VersionError

namespace Version

/-- Continue a number that has digits already. A digit after a lone zero is a
leading zero; a digit that carries past 64 bits is an overflow. -/
def readNumberTail (part : VersionPart) (value : Nat) :
    List Char → Except VersionError (UInt64 × List Char)
  | [] => .ok (UInt64.ofNat value, [])
  | c :: rest =>
    match Text.digitValue? c with
    | none => .ok (UInt64.ofNat value, c :: rest)
    | some digit =>
      if value = 0 then .error (.leadingZero part)
      else if Text.maxCount < value * 10 + digit then .error (.overflow part)
      else readNumberTail part (value * 10 + digit) rest

/-- Read one of the three numbers, which must start with a digit. -/
def readNumber (part : VersionPart) : List Char → Except VersionError (UInt64 × List Char)
  | [] => .error (.unexpectedEnd part)
  | c :: rest =>
    match Text.digitValue? c with
    | none => .error (.unexpectedChar part c)
    | some digit => readNumberTail part digit rest

/-- Read the point after a number. -/
def readPoint (part : VersionPart) : List Char → Except VersionError (List Char)
  | [] => .error (.unexpectedEnd part)
  | '.' :: rest => .ok rest
  | c :: _ => .error (.unexpectedCharAfter part c)

/-- The segments of a dotted identifier, and what follows it. The identifier
extends as far as segment characters and points go. -/
def splitIdentifier (text : List Char) : List (List Char) × List Char :=
  let inside := fun c => isSegmentChar c || c == '.'
  (Text.splitWhere (· == '.') (text.takeWhile inside), text.dropWhile inside)

/-- Read a pre-release. The first segment that is empty, or a number with a
leading zero, decides the error. -/
def readPreSegments : List (List Char) → Except VersionError (List PreSegment)
  | [] => .ok []
  | segment :: rest =>
    if valid : isPreSegment segment = true then
      (readPreSegments rest).map fun segments => ⟨segment, valid⟩ :: segments
    else if segment.isEmpty then .error (.emptySegment .pre)
    else .error (.leadingZero .pre)

/-- Read build metadata. -/
def readBuildSegments : List (List Char) → Except VersionError (List BuildSegment)
  | [] => .ok []
  | segment :: rest =>
    if valid : isBuildSegment segment = true then
      (readBuildSegments rest).map fun segments => ⟨segment, valid⟩ :: segments
    else .error (.emptySegment .build)

/-- An optional pre-release: its segments, the last part read, and the rest. -/
def readPre : List Char → Except VersionError (List PreSegment × VersionPart × List Char)
  | '-' :: text => do
    let (segments, rest) := splitIdentifier text
    return (← readPreSegments segments, .pre, rest)
  | text => .ok ([], .patch, text)

/-- Optional build metadata: its segments, the last part read, and the rest. -/
def readBuild (last : VersionPart) :
    List Char → Except VersionError (List BuildSegment × VersionPart × List Char)
  | '+' :: text => do
    let (segments, rest) := splitIdentifier text
    return (← readBuildSegments segments, .build, rest)
  | text => .ok ([], last, text)

/-- Read a version that has all three numbers. -/
def parseStrict (text : List Char) : Except VersionError Version := do
  if text.isEmpty then throw .empty
  let (major, text) ← readNumber .major text
  let text ← readPoint .major text
  let (minor, text) ← readNumber .minor text
  let text ← readPoint .minor text
  let (patch, text) ← readNumber .patch text
  let (pre, last, text) ← readPre text
  let (build, last, text) ← readBuild last text
  match text with
  | [] => return { major, minor, patch, pre, build }
  | c :: _ => throw (.unexpectedCharAfter last c)

/-- Fill in the numbers a trimmed version leaves out. The numbers end at the
first hyphen or plus sign; one number gets two zeros and two numbers get one. -/
def pad (text : List Char) : List Char :=
  let inCore := fun c => c != '-' && c != '+'
  let core := text.takeWhile inCore
  let suffix := text.dropWhile inCore
  match (Text.splitWhere (· == '.') core).length with
  | 1 => core ++ ".0.0".toList ++ suffix
  | 2 => core ++ ".0".toList ++ suffix
  | _ => text

/-- Read a version, blanks around it and missing numbers allowed. -/
def parse (text : List Char) : Except VersionError Version :=
  parseStrict (pad (Text.trim text))

end Version

/-- Why a text is no requirement. -/
inductive RequirementError where
  | missingVersion (requirement : String)
  | unknownOperator (symbol : String)
  | version (cause : VersionError)
deriving DecidableEq, Repr

namespace RequirementError

/-- The wording of the error. -/
def message : RequirementError → String
  | missingVersion requirement => "requirement '" ++ requirement ++ "' has no version"
  | unknownOperator symbol => "unknown version operator '" ++ symbol ++ "'"
  | version cause => "invalid version: " ++ cause.message

end RequirementError

/-- A version requirement. -/
structure Requirement where
  op : VersionOp
  version : Version
deriving DecidableEq

namespace Requirement

/-- Read an operator. -/
def parseOp (symbol : String) : Except RequirementError VersionOp :=
  match VersionOp.ofSymbol? symbol with
  | some op => .ok op
  | none => .error (.unknownOperator symbol)

/-- Read a requirement. The operator is all that stands before the first digit. -/
def parse (text : List Char) : Except RequirementError Requirement := do
  let text := Text.trim text
  let symbol := text.takeWhile fun c => !c.isDigit
  let version := text.dropWhile fun c => !c.isDigit
  if version.isEmpty then throw (.missingVersion (String.ofList text))
  let symbol := Text.trim symbol
  let op ← if symbol.isEmpty then pure VersionOp.eq else parseOp (String.ofList symbol)
  match Version.parse version with
  | .ok version => return { op, version }
  | .error cause => throw (.version cause)

end Requirement

end IsaLogic
