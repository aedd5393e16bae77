import IsaLogic.Term.Param
import IsaLogic.Version.Parser

/-!
# Terms

The predicates at the leaves of a formula: an extension is implemented at an
admitted version, a parameter compares in a given way, the base register width
is 32 or 64 bits, or a synthetic variable without meaning of its own. Terms are
plain values with a total order.
-/

namespace IsaLogic

/-- Extension `name` is implemented at a version satisfying `op version`. -/
structure ExtensionTerm where
  name : String
  op : VersionOp
  version : Version
deriving DecidableEq

/-- What a configuration knows of an extension. -/
inductive ExtensionFact where
  | implemented (version : Version)
  | absent
  | unknown

namespace ExtensionTerm

instance : Ord ExtensionTerm where
  compare left right :=
    (compare left.name right.name).then <|
    (compare left.op right.op).then (compare left.version right.version)

/-- Any version from zero on. -/
def any (name : String) : ExtensionTerm := { name, op := .ge, version := .zero }

/-- Exactly the given version. -/
def exact (name : String) (version : Version) : ExtensionTerm := { name, op := .eq, version }

/-- Whether the term names one version. -/
def isExact (term : ExtensionTerm) : Bool := term.op = .eq

/-- Whether a version satisfies the requirement. -/
def accepts (term : ExtensionTerm) (version : Version) : Bool :=
  term.op.accepts version term.version

/-- The accepted versions among some, ascending and without repetition. -/
def satisfying (term : ExtensionTerm) (available : List Version) : List Version :=
  ascending (available.filter term.accepts)

/-- The requirement as clauses write it, such as `>= 1.0.0`. -/
def requirement (term : ExtensionTerm) : String :=
  term.op.symbol ++ " " ++ term.version.text

/-- The verdict under what is known of the extension. -/
def evaluate (term : ExtensionTerm) : ExtensionFact → Verdict
  | .implemented version => Verdict.ofBool (term.accepts version)
  | .absent => .no
  | .unknown => .maybe

/-- The text of a term in displays. -/
def text (term : ExtensionTerm) : String :=
  term.name ++ term.op.symbol ++ term.version.text

/-- The declarative form of a term. -/
def toJson (term : ExtensionTerm) : Json :=
  .obj [("extension", .obj [("name", .str term.name), ("version", .str term.requirement)])]

end ExtensionTerm

/-- The width of the base integer registers. -/
inductive Xlen where
  | rv32
  | rv64
deriving DecidableEq

namespace Xlen

/-- Both widths. -/
def both : List Xlen := [rv32, rv64]

/-- The width in bits. -/
def bits : Xlen → Nat
  | rv32 => 32
  | rv64 => 64

/-- The name of a width in configuration files. -/
def name : Xlen → String
  | rv32 => "Rv32"
  | rv64 => "Rv64"

instance : Ord Xlen := ⟨fun left right => compare left.bits right.bits⟩

/-- The width of a given number of bits. -/
def ofBits? (bits : Int) : Option Xlen :=
  if bits = 32 then some rv32 else if bits = 64 then some rv64 else none

/-- The width of a given name. -/
def ofName? (name : String) : Option Xlen :=
  both.find? fun xlen => xlen.name == name

/-- The verdict when the width is one of some. A list of one width decides. -/
def evaluate (xlen : Xlen) (possible : List Xlen) : Verdict :=
  if !possible.contains xlen then .no
  else if possible.length = 1 then .yes
  else .maybe

end Xlen

/-- A leaf predicate. -/
inductive Term where
  | extension (term : ExtensionTerm)
  | parameter (term : ParamTerm)
  | xlen (width : Xlen)
  /-- A synthetic variable. -/
  | free (id : Nat)
deriving DecidableEq

namespace Term

/-- Extensions come before parameters, parameters before widths, widths before
synthetic variables. -/
def order : Term → Term → Ordering
  | extension a, extension b => compare a b
  | extension _, _ => .lt
  | parameter _, extension _ => .gt
  | parameter a, parameter b => compare a b
  | parameter _, _ => .lt
  | xlen _, extension _ => .gt
  | xlen _, parameter _ => .gt
  | xlen a, xlen b => compare a b
  | xlen _, free _ => .lt
  | free a, free b => compare a b
  | free _, _ => .gt

instance : Ord Term := ⟨order⟩

instance : Inhabited Term := ⟨free 0⟩

/-- Whether the term is a synthetic variable. -/
def isFree : Term → Bool
  | free _ => true
  | _ => false

/-- The extension requirement a term is. -/
def extension? : Term → Option ExtensionTerm
  | extension term => some term
  | _ => none

/-- The parameter comparison a term is. -/
def parameter? : Term → Option ParamTerm
  | parameter term => some term
  | _ => none

/-- The text of a term in displays. -/
def text : Term → String
  | extension term => term.text
  | parameter term => term.text
  | xlen width => "xlen()==" ++ toString width.bits
  | free id => "t" ++ toString id

/-- A character of an identifier: letters and digits stay, all else is a low line. -/
def identifierChar (c : Char) : Char :=
  if c.isAlphanum then c else '_'

/-- The name of a term as a variable in equations. -/
def identifier (term : Term) : String :=
  let raw := match term with
    | extension term => term.name ++ "_" ++ term.op.mnemonic ++ "_" ++ term.version.text
    | parameter term => term.rawIdentifier
    | xlen width => "XLEN" ++ toString width.bits
    | free id => "t" ++ toString id
  String.ofList (raw.toList.map identifierChar)

/-- The declarative form of a term; a synthetic variable has none. -/
def toJson? : Term → Option Json
  | extension term => some term.toJson
  | parameter term => some term.toJson
  | xlen width => some (.obj [("xlen", .int width.bits)])
  | free _ => none

end Term

end IsaLogic
