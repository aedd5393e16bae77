import IsaLogic.Formula.NegationNormal

/-!
# Formulas as text

The symbolic notations differ in their signs and in how they spell terms; one
record per notation holds these decisions. Prose, cross-referenced prose and the
outline are for readers of documentation.
-/

namespace IsaLogic

/-- The signs of a symbolic notation. -/
structure Signs where
  conj : String
  disj : String
  neg : String
  exactlyOne : String
  /-- Absent where an implication is written with the other signs. -/
  implies : Option String
  verum : String
  falsum : String
  /-- Whether terms are spelled as identifiers. -/
  identifiers : Bool
  /-- Whether the sign for exactly one means that for two operands only. -/
  exactlyOneIsBinary : Bool

namespace Signs

/-- Boolean expressions of the C language. -/
def c : Signs :=
  { conj := " && ", disj := " || ", neg := "!", exactlyOne := " ^ ", implies := none,
    verum := "true", falsum := "false", identifiers := true, exactlyOneIsBinary := true }

/-- Equations for two-level minimizers. -/
def equation : Signs :=
  { conj := " & ", disj := " | ", neg := "!", exactlyOne := " ^ ", implies := none,
    verum := "1", falsum := "0", identifiers := true, exactlyOneIsBinary := true }

/-- Capitalized words. -/
def english : Signs :=
  { conj := " AND ", disj := " OR ", neg := "NOT ", exactlyOne := " XOR ",
    implies := some " IMPLIES ", verum := "TRUE", falsum := "FALSE",
    identifiers := false, exactlyOneIsBinary := false }

/-- The signs of mathematical logic. -/
def predicate : Signs :=
  { conj := " ∧ ", disj := " ∨ ", neg := "¬", exactlyOne := " ⊕ ", implies := some " → ",
    verum := "⊤", falsum := "⊥", identifiers := false, exactlyOneIsBinary := false }

/-- The spelling of a term. -/
def spell (signs : Signs) (term : Term) : String :=
  if signs.identifiers then term.identifier else term.text

end Signs

namespace Formula

mutual

/-- Spell out exactly-one of other than two operands by the other connectives. -/
def spellOutOne : Formula → Formula
  | .constant value => .constant value
  | .atom term => .atom term
  | .neg f => .neg (spellOutOne f)
  | .conj fs => .conj (spellOutOnes fs)
  | .disj fs => .disj (spellOutOnes fs)
  | .exactlyOne fs =>
    if fs.length = 2 then .exactlyOne (spellOutOnes fs) else nnf (.exactlyOne fs)
  | .noneOf fs => .noneOf (spellOutOnes fs)
  | .implies a b => .implies (spellOutOne a) (spellOutOne b)

/-- Spell out exactly-one in some formulas. -/
def spellOutOnes : List Formula → List Formula
  | [] => []
  | f :: fs => spellOutOne f :: spellOutOnes fs

end

/-- Parentheses around an operand, none around the whole. -/
def wrap (top : Bool) (text : String) : String :=
  if top then text else "(" ++ text ++ ")"

/-- Operands below the root, joined by a sign. -/
def joinInner (sign : String) (parts : List (Bool → String)) : String :=
  String.intercalate sign (parts.map (· false))

/-- The text of a formula, as the whole or as an operand. -/
def renderWith (signs : Signs) : Formula → Bool → String :=
  fold {
    constant := fun value _ => if value then signs.verum else signs.falsum
    atom := fun term _ => signs.spell term
    neg := fun f _ => signs.neg ++ f false
    conj := fun fs top => wrap top (joinInner signs.conj fs)
    disj := fun fs top => wrap top (joinInner signs.disj fs)
    exactlyOne := fun fs top => wrap top (joinInner signs.exactlyOne fs)
    noneOf := fun fs _ => signs.neg ++ "(" ++ joinInner signs.disj fs ++ ")"
    implies := fun a b top =>
      match signs.implies with
      | some arrow => wrap top (a false ++ arrow ++ b false)
      | none => wrap top (signs.neg ++ a false ++ signs.disj ++ b false) }

/-- A formula in a symbolic notation. -/
def render (signs : Signs) (f : Formula) : String :=
  (if signs.exactlyOneIsBinary then f.spellOutOne else f).renderWith signs true

/-- The text of a formula in messages. -/
def text (f : Formula) : String := f.render .predicate

/-- An extension term in prose, its extension called `name`. -/
def extensionProse (term : ExtensionTerm) (name : String) : String :=
  if term.op = .ge ∧ term.version = .zero then name
  else if term.isExact then name ++ " version " ++ term.version.text
  else name ++ " " ++ term.requirement

/-- A term in prose. -/
def termProse : Term → String
  | .extension term => extensionProse term term.name
  | .xlen width => "XLEN is " ++ toString width.bits
  | term => term.text

/-- A term in prose with cross-reference marks around extension names. -/
def termLinked : Term → String
  | .extension term =>
    extensionProse term ("%%LINK%ext;" ++ term.name ++ ";" ++ term.name ++ "%%")
  | term => termProse term

/-- A formula in prose, as the whole or as an operand. -/
def proseWith (spell : Term → String) : Formula → Bool → String :=
  fold {
    constant := fun value _ => if value then "always" else "never"
    atom := fun term _ => spell term
    neg := fun f _ => "not " ++ f false
    conj := fun fs top => wrap top (joinInner " and " fs)
    disj := fun fs top => wrap top (joinInner " or " fs)
    exactlyOne := fun fs _ => "exactly one of (" ++ joinInner ", " fs ++ ")"
    noneOf := fun fs _ => "none of (" ++ joinInner ", " fs ++ ")"
    implies := fun a b top => wrap top ("if " ++ a false ++ " then " ++ b false) }

/-- A formula in prose. -/
def prose (f : Formula) : String := f.proseWith termProse true

/-- A formula in prose with cross-reference marks. -/
def linkedProse (f : Formula) : String := f.proseWith termLinked true

/-- A line of an outline. -/
def outlineLine (depth : Nat) (text : String) : String :=
  String.ofList (List.replicate (2 * depth) ' ') ++ text ++ "\n"

/-- A heading of an outline and what stands below it. -/
def outlineSection (label : String) (parts : List (Nat → String)) (depth : Nat) : String :=
  outlineLine depth label ++ String.join (parts.map (· (depth + 1)))

/-- An indented outline, one line for every leaf and connective. -/
def outline (f : Formula) : String :=
  fold {
    constant := fun value depth => outlineLine depth (prose (.constant value))
    atom := fun term depth => outlineLine depth (termProse term)
    neg := fun f => outlineSection "not:" [f]
    conj := outlineSection "all of:"
    disj := outlineSection "any of:"
    exactlyOne := outlineSection "exactly one of:"
    noneOf := outlineSection "none of:"
    implies := fun a b depth =>
      outlineSection "if:" [a] depth ++ outlineSection "then:" [b] depth } f 0

end Formula

end IsaLogic
