import IsaLogic.Decimal.Shortest
import IsaLogic.Json.Basic
import IsaLogic.Text.Integer

/-!
# JSON numbers

Reading: an integer that fits 64 bits stays an integer; every other number
becomes a double. A double is computed from at most the leading digits that fit
64 bits, scaled by one multiplication or division with a power of ten, and a
number too large for a double is refused. A negative zero is a double.

Writing: integers in decimal; doubles by the shortest digits that read back,
positional between `1e-5` and `1e16` and with an exponent elsewhere.
-/

namespace IsaLogic.Json

/-- The digits of a number as far as they fit 64 bits, and by how many powers of
ten the digits that did not fit, or that stood after the point, change it. -/
structure Scaled where
  significand : Nat
  exponent : Int

/-- Take in digits before the point; those that do not fit are counted. -/
def Scaled.whole (s : Scaled) (full : Bool) : List Char → Scaled × Bool
  | [] => (s, full)
  | c :: rest =>
    let next := s.significand * 10 + (c.toNat - '0'.toNat)
    if full || Text.maxCount < next then
      Scaled.whole { s with exponent := s.exponent + 1 } true rest
    else Scaled.whole { s with significand := next } false rest

/-- Take in digits after the point; those that do not fit are dropped. -/
def Scaled.fraction (s : Scaled) : List Char → Scaled
  | [] => s
  | c :: rest =>
    let next := s.significand * 10 + (c.toNat - '0'.toNat)
    if Text.maxCount < next then s
    else Scaled.fraction { significand := next, exponent := s.exponent - 1 } rest

/-- The largest power of ten that a double holds. -/
def maxPower : Nat := 308

/-- Scale a double by a power of ten; `none` when it overflows. Exponents below
`-308` are worked off in steps, at most `steps` of them. -/
def scale (steps : Nat) (value : Float) (exponent : Int) : Option Float :=
  let power := Float.ofScientific 1 false exponent.natAbs
  if exponent.natAbs ≤ maxPower then
    if 0 ≤ exponent then
      let scaled := value * power
      if scaled.isInf then none else some scaled
    else some (value / power)
  else if value == 0.0 then some value
  else if 0 ≤ exponent then none
  else
    match steps with
    | 0 => some 0.0
    | steps + 1 => scale steps (value / Float.ofScientific 1 false maxPower) (exponent + maxPower)

/-- The double with the given sign, digits and power of ten. -/
def ofScaled? (negative : Bool) (s : Scaled) : Option Json :=
  (scale 8 (Float.ofNat s.significand) s.exponent).map fun value =>
    float (if negative then -value else value).toBits

/-- The value of an exponent, as far as it matters: beyond `2^31` it stays there. -/
def exponentValue (digits : List Char) : Int :=
  digits.foldl (fun value c => min 2147483648 (value * 10 + ((c.toNat - '0'.toNat : Nat) : Int))) 0

/-- The exponent part of a number: nothing, or a mark, a sign and digits. -/
def readExponent : List Char → Option (Option Int)
  | [] => some none
  | mark :: rest =>
    if mark = 'e' ∨ mark = 'E' then
      let (sign, digits) := match rest with
        | '+' :: digits => (1, digits)
        | '-' :: digits => (-1, digits)
        | digits => ((1 : Int), digits)
      if digits.isEmpty || !digits.all Char.isDigit then none
      else some (some (sign * exponentValue digits))
    else none

/-- An exponent past 31 bits makes a number zero or too large at once. -/
def applyExponent (negative : Bool) (s : Scaled) (exponent : Int) : Option Json :=
  if exponent.natAbs < 2147483648 then
    ofScaled? negative { s with exponent := s.exponent + exponent }
  else if s.significand = 0 ∨ exponent < 0 then
    some (float (if negative then -0.0 else (0.0 : Float)).toBits)
  else none

/-- Read a number without its sign. -/
def readUnsigned (negative : Bool) (text : List Char) : Option Json :=
  let digits := text.takeWhile Char.isDigit
  let rest := text.dropWhile Char.isDigit
  match digits with
  | [] => none
  | '0' :: _ :: _ => none
  | _ =>
    let (whole, full) := Scaled.whole { significand := 0, exponent := 0 } false digits
    match rest with
    | [] =>
      if full then ofScaled? negative whole
      else if negative then
        if whole.significand = 0 ∨ 9223372036854775808 < whole.significand then
          some (float (-(Float.ofNat whole.significand)).toBits)
        else some (int (-(whole.significand : Int)))
      else some (int whole.significand)
    | '.' :: rest =>
      let decimals := rest.takeWhile Char.isDigit
      if decimals.isEmpty then none
      else
        let s := whole.fraction decimals
        match readExponent (rest.dropWhile Char.isDigit) with
        | none => none
        | some none => ofScaled? negative s
        | some (some exponent) => applyExponent negative s exponent
    | rest =>
      match readExponent rest with
      | none | some none => none
      | some (some exponent) => applyExponent negative whole exponent

/-- Read a number; the whole text has to be one. -/
def readNumber : List Char → Option Json
  | '-' :: rest => readUnsigned true rest
  | text => readUnsigned false text

/-- A double in decimal. -/
def floatText (bits : UInt64) : String :=
  let binary := Decimal.Binary.ofBits bits
  let sign := if binary.negative then "-" else ""
  if binary.m = 0 then sign ++ "0.0"
  else
    let shortest := Decimal.shortest binary.m binary.q
    let digits := (Nat.toDigits 10 shortest.digits)
    let point := shortest.exponent + digits.length
    let zeros := fun (n : Int) => List.replicate n.toNat '0'
    let text :=
      if 0 ≤ shortest.exponent ∧ point ≤ 16 then
        digits ++ zeros shortest.exponent ++ ".0".toList
      else if 0 < point ∧ point ≤ 16 then
        digits.take point.toNat ++ ['.'] ++ digits.drop point.toNat
      else if -5 < point ∧ point ≤ 0 then
        "0.".toList ++ zeros (-point) ++ digits
      else
        let rest := digits.drop 1
        digits.take 1 ++ (if rest.isEmpty then [] else '.' :: rest) ++
          ['e'] ++ (toString (point - 1)).toList
    sign ++ String.ofList text

end IsaLogic.Json
