/-!
# Decimal integers within bounds

Reading a decimal integer that has to fit a machine word. Digits are taken from
the left, and the first digit that is none, or that carries the value past its
bound, decides the error.
-/

namespace IsaLogic.Text

/-- Why a text is no integer of the wanted size. -/
inductive IntegerError where
  | empty
  | invalidDigit
  | tooLarge
  | tooSmall
deriving DecidableEq, Repr

namespace IntegerError

/-- The wording of the error. -/
def message : IntegerError → String
  | empty => "cannot parse integer from empty string"
  | invalidDigit => "invalid digit found in string"
  | tooLarge => "number too large to fit in target type"
  | tooSmall => "number too small to fit in target type"

end IntegerError

/-- The value of a decimal digit. -/
def digitValue? (c : Char) : Option Nat :=
  if '0' ≤ c ∧ c ≤ '9' then some (c.toNat - '0'.toNat) else none

/-- Continue the number `value` with digits, staying within `bound`. -/
def readDigits (bound : Nat) (overflow : IntegerError) (value : Nat) :
    List Char → Except IntegerError Nat
  | [] => .ok value
  | c :: rest =>
    match digitValue? c with
    | none => .error .invalidDigit
    | some digit =>
      if bound < value * 10 + digit then .error overflow
      else readDigits bound overflow (value * 10 + digit) rest

/-- An unsigned integer of at most `bound`, with an optional plus sign. -/
def readNat (bound : Nat) : List Char → Except IntegerError Nat
  | [] => .error .empty
  | ['+'] => .error .invalidDigit
  | '+' :: digits => readDigits bound .tooLarge 0 digits
  | digits => readDigits bound .tooLarge 0 digits

/-- A signed integer of at least `-(bound + 1)` and at most `bound`. -/
def readInt (bound : Nat) : List Char → Except IntegerError Int
  | [] => .error .empty
  | ['+'] => .error .invalidDigit
  | ['-'] => .error .invalidDigit
  | '+' :: digits => (readDigits bound .tooLarge 0 digits).map fun n => (n : Int)
  | '-' :: digits => (readDigits (bound + 1) .tooSmall 0 digits).map fun n => -(n : Int)
  | digits => (readDigits bound .tooLarge 0 digits).map fun n => (n : Int)

/-- The largest count: counts are 64-bit words. -/
def maxCount : Nat := 18446744073709551615

/-- The largest literal of a clause: literals are signed 32-bit words. -/
def maxLiteral : Nat := 2147483647

end IsaLogic.Text
