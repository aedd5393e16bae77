/-!
# Versions

An extension version: three numbers, an optional pre-release and optional build
metadata. The order is total and agrees with equality: the numbers come first,
then the pre-release (a version without one is the later), then the build
metadata (a version without it is the earlier).
-/

namespace IsaLogic

/-- Characters of pre-release and build segments. -/
def isSegmentChar (c : Char) : Bool :=
  c.isAlphanum || c == '-'

/-- Whether a segment consists of digits only. -/
def allDigits (segment : List Char) : Bool :=
  segment.all Char.isDigit

/-- A build segment is not empty and has letters, digits and hyphens only. -/
def isBuildSegment (segment : List Char) : Bool :=
  !segment.isEmpty && segment.all isSegmentChar

/-- A pre-release segment is a build segment that, if it is a number of several
digits, does not start with a zero. -/
def isPreSegment (segment : List Char) : Bool :=
  isBuildSegment segment &&
    !(allDigits segment && decide (1 < segment.length) && segment.head? == some '0')

/-- A segment of a pre-release. -/
abbrev PreSegment := { segment : List Char // isPreSegment segment = true }

/-- A segment of build metadata. -/
abbrev BuildSegment := { segment : List Char // isBuildSegment segment = true }

/-- A version. Empty lists stand for an absent pre-release and absent metadata. -/
structure Version where
  major : UInt64
  minor : UInt64
  patch : UInt64
  pre : List PreSegment := []
  build : List BuildSegment := []
deriving DecidableEq

namespace Version

/-- The version `0.0.0`. -/
def zero : Version := { major := 0, minor := 0, patch := 0 }

/-- Compare texts by length and then by characters: the order of numbers
without leading zeros. -/
def compareNumerals (left right : List Char) : Ordering :=
  (compare left.length right.length).then (compare left right)

/-- A number comes before a name; numbers compare by value, names by text. -/
def comparePreSegment (left right : List Char) : Ordering :=
  match allDigits left, allDigits right with
  | false, true => .gt
  | true, false => .lt
  | false, false => compare left right
  | true, true => compareNumerals left right

/-- Build numbers may have leading zeros: equal values compare by length. -/
def compareBuildSegment (left right : List Char) : Ordering :=
  match allDigits left, allDigits right with
  | false, true => .gt
  | true, false => .lt
  | false, false => compare left right
  | true, true =>
    (compareNumerals (left.dropWhile (· == '0')) (right.dropWhile (· == '0'))).then
      (compare left.length right.length)

/-- Compare two lists position by position; of two that agree, the shorter one
comes first. -/
def compareSegments (segment : List Char → List Char → Ordering) :
    List (List Char) → List (List Char) → Ordering
  | [], [] => .eq
  | [], _ :: _ => .lt
  | _ :: _, [] => .gt
  | left :: lefts, right :: rights =>
    (segment left right).then (compareSegments segment lefts rights)

/-- Compare pre-releases. A version without one is later than any with one. -/
def comparePre (left right : List (List Char)) : Ordering :=
  match left, right with
  | [], [] => .eq
  | [], _ :: _ => .gt
  | _ :: _, [] => .lt
  | _, _ => compareSegments comparePreSegment left right

/-- Compare versions. -/
def order (left right : Version) : Ordering :=
  (compare left.major right.major).then <|
  (compare left.minor right.minor).then <|
  (compare left.patch right.patch).then <|
  (comparePre (left.pre.map Subtype.val) (right.pre.map Subtype.val)).then <|
  compareSegments compareBuildSegment (left.build.map Subtype.val) (right.build.map Subtype.val)

instance : Ord Version := ⟨order⟩

/-- Segments joined by points. -/
def joinSegments (segments : List (List Char)) : String :=
  String.intercalate "." (segments.map String.ofList)

/-- The pre-release, empty when there is none. -/
def preText (version : Version) : String :=
  joinSegments (version.pre.map Subtype.val)

/-- The build metadata, empty when there is none. -/
def buildText (version : Version) : String :=
  joinSegments (version.build.map Subtype.val)

/-- The written form, such as `1.0.0-rc.1+b`. -/
def text (version : Version) : String :=
  let numbers := s!"{version.major}.{version.minor}.{version.patch}"
  let pre := if version.pre.isEmpty then "" else "-" ++ version.preText
  let build := if version.build.isEmpty then "" else "+" ++ version.buildText
  numbers ++ pre ++ build

end Version

/-- How a version requirement compares. -/
inductive VersionOp where
  | eq
  | ge
  | gt
  | le
  | lt
  /-- At least the given version, within the same major version. -/
  | compatible
deriving DecidableEq, Repr

namespace VersionOp

/-- All operators, in ascending order. -/
def all : List VersionOp := [eq, ge, gt, le, lt, compatible]

/-- The place of an operator in the order of operators. -/
def rank : VersionOp → Nat
  | eq => 0
  | ge => 1
  | gt => 2
  | le => 3
  | lt => 4
  | compatible => 5

instance : Ord VersionOp := ⟨fun left right => compare left.rank right.rank⟩

/-- The sign of an operator in requirement texts. -/
def symbol : VersionOp → String
  | eq => "="
  | ge => ">="
  | gt => ">"
  | le => "<="
  | lt => "<"
  | compatible => "~>"

/-- The name of an operator in configuration files. -/
def name : VersionOp → String
  | eq => "Eq"
  | ge => "Ge"
  | gt => "Gt"
  | le => "Le"
  | lt => "Lt"
  | compatible => "Compatible"

/-- The short word for an operator in identifiers. -/
def mnemonic : VersionOp → String
  | eq => "eq"
  | ge => "ge"
  | gt => "gt"
  | le => "le"
  | lt => "lt"
  | compatible => "compat"

/-- The operator with a given name. -/
def ofName? (name : String) : Option VersionOp :=
  all.find? fun op => op.name == name

/-- The operator with a given sign; equality has two signs. -/
def ofSymbol? (symbol : String) : Option VersionOp :=
  if symbol = "==" then some .eq else all.find? fun op => op.symbol == symbol

/-- Whether `candidate` satisfies the requirement `op base`. -/
def accepts (op : VersionOp) (candidate base : Version) : Bool :=
  match op with
  | eq => candidate = base
  | ge => (compare candidate base).isGE
  | gt => (compare candidate base).isGT
  | le => (compare candidate base).isLE
  | lt => (compare candidate base).isLT
  | compatible => (compare candidate base).isGE && candidate.major == base.major

end VersionOp

end IsaLogic
