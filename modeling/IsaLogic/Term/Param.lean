import IsaLogic.Ascending
import IsaLogic.Json.Basic
import IsaLogic.Verdict

/-!
# Parameter comparisons

A parameter of a configuration holds a boolean, an integer, a string or an array
of such values. A parameter term compares the whole value, one element or the
length of an array with an operand.

`ParamTerm.relation?` finds what one comparison says about another on the same
parameter, by listing the values of a finite comparison or by the integer
interval of an ordering.
-/

namespace IsaLogic

/-- A value of a parameter. -/
inductive ParamValue where
  | bool (value : Bool)
  | int (value : Int64)
  | str (value : String)
  | array (items : List ParamValue)
deriving Inhabited

namespace ParamValue

mutual

/-- Structural equality. -/
def beq : ParamValue → ParamValue → Bool
  | bool a, bool b => a == b
  | int a, int b => a == b
  | str a, str b => a == b
  | array as, array bs => beqItems as bs
  | _, _ => false

/-- Structural equality of lists of values. -/
def beqItems : List ParamValue → List ParamValue → Bool
  | [], [] => true
  | a :: as, b :: bs => beq a b && beqItems as bs
  | _, _ => false

end

instance : BEq ParamValue := ⟨beq⟩

mutual

theorem eq_of_beq_true : ∀ (a b : ParamValue), beq a b = true → a = b
  | bool _, bool _, h => by simp [beq] at h; rw [h]
  | int _, int _, h => by simp [beq] at h; rw [h]
  | str _, str _, h => by simp [beq] at h; rw [h]
  | array as, array bs, h => by
    simp only [beq] at h
    rw [eq_of_beqItems as bs h]
  | bool _, int _, h => by simp [beq] at h
  | bool _, str _, h => by simp [beq] at h
  | bool _, array _, h => by simp [beq] at h
  | int _, bool _, h => by simp [beq] at h
  | int _, str _, h => by simp [beq] at h
  | int _, array _, h => by simp [beq] at h
  | str _, bool _, h => by simp [beq] at h
  | str _, int _, h => by simp [beq] at h
  | str _, array _, h => by simp [beq] at h
  | array _, bool _, h => by simp [beq] at h
  | array _, int _, h => by simp [beq] at h
  | array _, str _, h => by simp [beq] at h

theorem eq_of_beqItems : ∀ (as bs : List ParamValue), beqItems as bs = true → as = bs
  | [], [], _ => rfl
  | a :: as, b :: bs, h => by
    simp only [beqItems, Bool.and_eq_true] at h
    rw [eq_of_beq_true a b h.1, eq_of_beqItems as bs h.2]
  | [], _ :: _, h => by simp [beqItems] at h
  | _ :: _, [], h => by simp [beqItems] at h

end

mutual

theorem beq_self : ∀ (a : ParamValue), beq a a = true
  | bool _ => by simp [beq]
  | int _ => by simp [beq]
  | str _ => by simp [beq]
  | array as => by simp only [beq]; exact beqItems_self as

theorem beqItems_self : ∀ (as : List ParamValue), beqItems as as = true
  | [] => rfl
  | a :: as => by simp only [beqItems, beq_self a, beqItems_self as, Bool.and_self]

end

instance : LawfulBEq ParamValue where
  eq_of_beq {a b} h := eq_of_beq_true a b h
  rfl {a} := beq_self a

instance : DecidableEq ParamValue := instDecidableEqOfLawfulBEq

mutual

/-- Booleans come before integers, integers before strings, strings before
arrays; values of one kind compare by content. -/
def order : ParamValue → ParamValue → Ordering
  | bool a, bool b => compare a b
  | bool _, _ => .lt
  | int _, bool _ => .gt
  | int a, int b => compare a b
  | int _, _ => .lt
  | str _, bool _ => .gt
  | str _, int _ => .gt
  | str a, str b => compare a b
  | str _, array _ => .lt
  | array as, array bs => orderItems as bs
  | array _, _ => .gt

/-- Lists of values compare position by position, and the shorter first. -/
def orderItems : List ParamValue → List ParamValue → Ordering
  | [], [] => .eq
  | [], _ :: _ => .lt
  | _ :: _, [] => .gt
  | a :: as, b :: bs => (order a b).then (orderItems as bs)

end

instance : Ord ParamValue := ⟨order⟩

/-- The integer a value is. -/
def int? : ParamValue → Option Int64
  | int value => some value
  | _ => none

mutual

/-- The text of a value in displays. -/
def text : ParamValue → String
  | bool true => "true"
  | bool false => "false"
  | int value => toString value
  | str value => "'" ++ value ++ "'"
  | array items => "[" ++ String.intercalate ", " (textItems items) ++ "]"

/-- The texts of some values. -/
def textItems : List ParamValue → List String
  | [] => []
  | item :: rest => text item :: textItems rest

end

mutual

/-- The JSON form of a value. -/
def toJson : ParamValue → Json
  | bool value => .bool value
  | int value => .int value.toInt
  | str value => .str value
  | array items => .arr (toJsonItems items)

/-- The JSON forms of some values. -/
def toJsonItems : List ParamValue → List Json
  | [] => []
  | item :: rest => toJson item :: toJsonItems rest

end

mutual

/-- The value a JSON value denotes; null, objects, doubles and integers past 64
bits denote none. -/
def ofJson? : Json → Option ParamValue
  | .bool value => some (bool value)
  | .int value => ((Json.int value).int64?).map int
  | .str value => some (str value)
  | .arr items => (ofJsonItems? items).map array
  | _ => none

/-- The values that all of some JSON values denote. -/
def ofJsonItems? : List Json → Option (List ParamValue)
  | [] => some []
  | item :: rest =>
    match ofJson? item with
    | none => none
    | some value => (ofJsonItems? rest).map fun values => value :: values

end

end ParamValue

/-- What a parameter term says of the value it looks at. -/
inductive Comparison where
  | equal (operand : ParamValue)
  | notEqual (operand : ParamValue)
  | lessThan (bound : Int64)
  | greaterThan (bound : Int64)
  | atMost (bound : Int64)
  | atLeast (bound : Int64)
  | includes (operand : ParamValue)
  | oneOf (operands : List ParamValue)
deriving DecidableEq

namespace Comparison

/-- The declarative key. -/
def key : Comparison → String
  | equal _ => "equal"
  | notEqual _ => "not_equal"
  | lessThan _ => "less_than"
  | greaterThan _ => "greater_than"
  | atMost _ => "less_than_or_equal"
  | atLeast _ => "greater_than_or_equal"
  | includes _ => "includes"
  | oneOf _ => "oneOf"

/-- The name of the comparison in serialized and fingerprinted terms. -/
def name : Comparison → String
  | equal _ => "Equal"
  | notEqual _ => "NotEqual"
  | lessThan _ => "LessThan"
  | greaterThan _ => "GreaterThan"
  | atMost _ => "LessThanOrEqual"
  | atLeast _ => "GreaterThanOrEqual"
  | includes _ => "Includes"
  | oneOf _ => "OneOf"

/-- The sign of the comparison in displays. -/
def symbol : Comparison → String
  | equal _ => "=="
  | notEqual _ => "!="
  | lessThan _ => "<"
  | greaterThan _ => ">"
  | atMost _ => "<="
  | atLeast _ => ">="
  | includes _ => " includes "
  | oneOf _ => " in "

/-- The operand as a value; a list of alternatives is an array. -/
def operand : Comparison → ParamValue
  | equal v | notEqual v | includes v => v
  | lessThan n | greaterThan n | atMost n | atLeast n => .int n
  | oneOf vs => .array vs

/-- The place of a comparison in the order of comparisons. -/
def rank : Comparison → Nat
  | equal _ => 0
  | notEqual _ => 1
  | lessThan _ => 2
  | greaterThan _ => 3
  | atMost _ => 4
  | atLeast _ => 5
  | includes _ => 6
  | oneOf _ => 7

instance : Ord Comparison where
  compare left right :=
    (compare left.rank right.rank).then (compare left.operand right.operand)

/-- Whether a value satisfies the comparison. Orderings hold of integers only,
and inclusion of arrays only. -/
def test (comparison : Comparison) (value : ParamValue) : Bool :=
  match comparison, value with
  | equal v, value => value == v
  | notEqual v, value => value != v
  | lessThan n, .int x => x < n
  | greaterThan n, .int x => n < x
  | atMost n, .int x => x ≤ n
  | atLeast n, .int x => n ≤ x
  | includes v, .array items => items.contains v
  | oneOf vs, value => vs.contains value
  | _, _ => false

/-- A closed interval of integers; a missing end is unbounded. -/
structure Interval where
  low : Option Int
  high : Option Int

namespace Interval

/-- Whether an integer lies in the interval. -/
def contains (range : Interval) (n : Int) : Bool :=
  range.low.all (fun low => decide (low ≤ n)) && range.high.all fun high => decide (n ≤ high)

/-- Whether every integer of `inner` lies in `outer`, read off the ends. -/
def within (inner outer : Interval) : Bool :=
  (match outer.low, inner.low with
    | none, _ => true
    | some _, none => false
    | some o, some i => decide (o ≤ i)) &&
  (match outer.high, inner.high with
    | none, _ => true
    | some _, none => false
    | some o, some i => decide (i ≤ o))

/-- Whether the first interval ends before the second starts. -/
def before (left right : Interval) : Bool :=
  match left.high, right.low with
  | some high, some low => decide (high < low)
  | _, _ => false

/-- Whether no integer lies in both intervals, read off the ends. -/
def disjoint (left right : Interval) : Bool :=
  left.before right || right.before left

end Interval

/-- The integers that satisfy an ordering, or equality with an integer. -/
def interval? : Comparison → Option Interval
  | equal (.int v) => some { low := some v.toInt, high := some v.toInt }
  | lessThan v => some { low := none, high := some (v.toInt - 1) }
  | atMost v => some { low := none, high := some v.toInt }
  | greaterThan v => some { low := some (v.toInt + 1), high := none }
  | atLeast v => some { low := some v.toInt, high := none }
  | _ => none

/-- All values that satisfy the comparison, when it lists them. -/
def values? : Comparison → Option (List ParamValue)
  | equal v => some [v]
  | oneOf vs => some vs
  | _ => none

/-- What the comparison that admits exactly `values` says of another: `some true`
if it implies it, `some false` if it excludes it. No values say nothing. -/
def impliesByValues (values : List ParamValue) (other : Comparison) : Option Bool :=
  if values.isEmpty then none
  else if values.all other.test then some true
  else if values.any other.test then none
  else some false

/-- What an ordering says of another comparison. -/
def impliesByInterval (range : Interval) (other : Comparison) : Option Bool :=
  match other.interval? with
  | some theirs =>
    if range.within theirs then some true
    else if range.disjoint theirs then some false
    else none
  | none =>
    match other with
    | notEqual (.int w) => if range.contains w.toInt then none else some true
    | oneOf ws =>
      let outside := fun (w : ParamValue) => w.int?.all fun n => !range.contains n.toInt
      if ws.all outside then some false else none
    | _ => none

/-- What a comparison says of another on the same value: `some true` if it
implies it, `some false` if it excludes it. -/
def implies? (ours theirs : Comparison) : Option Bool :=
  match ours.values?, ours.interval? with
  | some values, _ => impliesByValues values theirs
  | none, some range => impliesByInterval range theirs
  | none, none =>
    match ours, theirs with
    | notEqual v, equal w => if v = w then some false else none
    | _, _ => none

/-- The comparison that holds when this one does not, where one word says it. -/
def negation? : Comparison → Option Comparison
  | equal v => some (notEqual v)
  | notEqual v => some (equal v)
  | lessThan n => some (atLeast n)
  | atLeast n => some (lessThan n)
  | greaterThan n => some (atMost n)
  | atMost n => some (greaterThan n)
  | includes _ | oneOf _ => none

/-- Alternatives in ascending order without repetition, so that equal
comparisons are equal values. -/
def normalize : Comparison → Comparison
  | oneOf vs => oneOf (ascending vs)
  | other => other

end Comparison

/-- The part of a parameter that a term looks at. -/
inductive ParamScope where
  | value
  | index (position : UInt64)
  | size
deriving DecidableEq

namespace ParamScope

/-- The place of a scope in the order of scopes. -/
def rank : ParamScope → Nat
  | value => 0
  | index _ => 1
  | size => 2

/-- The position of an element scope. -/
def position : ParamScope → UInt64
  | index position => position
  | _ => 0

instance : Ord ParamScope where
  compare left right :=
    (compare left.rank right.rank).then (compare left.position right.position)

/-- The part of a value that a scope selects. -/
def select? (scope : ParamScope) (value : ParamValue) : Option ParamValue :=
  match scope, value with
  | .value, v => some v
  | .index i, .array items => items[i.toNat]?
  | .size, .array items => some (.int (Int64.ofNat items.length))
  | _, _ => none

end ParamScope

/-- Parameter `name`, seen through `scope`, satisfies `comparison`. -/
structure ParamTerm where
  name : String
  scope : ParamScope
  comparison : Comparison
deriving DecidableEq

namespace ParamTerm

instance : Ord ParamTerm where
  compare left right :=
    (compare left.name right.name).then <|
    (compare left.scope right.scope).then (compare left.comparison right.comparison)

/-- A term with its alternatives in order. -/
def make (name : String) (scope : ParamScope) (comparison : Comparison) : ParamTerm :=
  { name, scope, comparison := comparison.normalize }

/-- The verdict when the parameter has the given value, or none that is known. A
scope that selects nothing fails the term. -/
def evaluate (term : ParamTerm) : Option ParamValue → Verdict
  | none => .maybe
  | some value =>
    match term.scope.select? value with
    | some part => Verdict.ofBool (term.comparison.test part)
    | none => .no

/-- The term in the opposite sense, where one comparison says it. -/
def negation? (term : ParamTerm) : Option ParamTerm :=
  term.comparison.negation?.map fun comparison => make term.name term.scope comparison

/-- What a term says of a different one on the same part of the same parameter:
`some true` if it implies it, `some false` if it excludes it. -/
def relation? (term other : ParamTerm) : Option Bool :=
  if term.name ≠ other.name ∨ term.scope ≠ other.scope ∨ term = other then none
  else term.comparison.implies? other.comparison

/-- The text of a term in displays. -/
def text (term : ParamTerm) : String :=
  let subject := match term.scope with
    | .value => term.name
    | .index i => term.name ++ "[" ++ toString i ++ "]"
    | .size => "len(" ++ term.name ++ ")"
  subject ++ term.comparison.symbol ++ term.comparison.operand.text

/-- The identifier of a term, before characters are replaced. -/
def rawIdentifier (term : ParamTerm) : String :=
  let scope := match term.scope with
    | .value => ""
    | .index i => "_" ++ toString i
    | .size => "_size"
  term.name ++ scope ++ "_" ++ term.comparison.key ++ "_" ++ term.comparison.operand.text

/-- The declarative form of a term. -/
def toJson (term : ParamTerm) : Json :=
  let scope := match term.scope with
    | .value => []
    | .index i => [("index", Json.int i.toNat)]
    | .size => [("size", Json.bool true)]
  let fields :=
    [("name", Json.str term.name), (term.comparison.key, term.comparison.operand.toJson)] ++ scope
  .obj [("param", .obj (Json.sortFields fields))]

end ParamTerm

end IsaLogic
