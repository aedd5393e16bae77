/-!
# Shortest decimals

The fewest decimal digits that read back as a given binary floating-point
number. A double is taken apart into `m · 2^q`; a decimal reads back as it when
it lies between the midpoints to the two neighbouring doubles, the midpoints
themselves included when `m` is even. For one digit, two digits and so on, only
the two decimals of that length next to the number need to be tried.
-/

namespace IsaLogic.Decimal

/-- A double as sign, significand and binary exponent: `± m · 2^q`. -/
structure Binary where
  negative : Bool
  m : Nat
  q : Int
deriving Repr

/-- Take the bits of a finite double apart. -/
def Binary.ofBits (bits : UInt64) : Binary :=
  let n := bits.toNat
  let negative := Nat.pow 2 63 ≤ n
  let exponent : Nat := n / Nat.pow 2 52 % Nat.pow 2 11
  let fraction := n % Nat.pow 2 52
  if exponent = 0 then { negative, m := fraction, q := -1074 }
  else { negative, m := Nat.pow 2 52 + fraction, q := Int.ofNat exponent - 1075 }

/-- Decimal digits and the power of ten of the unit in the last place. -/
structure Digits where
  digits : Nat
  exponent : Int
deriving Repr

/-- The positive numbers `n · 2^e` and `unit = 10^u`, as one fraction `n · 2^e / unit`. -/
def ratio (n : Nat) (e u : Int) : Nat × Nat :=
  (n * Nat.pow 2 e.toNat * Nat.pow 10 (-u).toNat, Nat.pow 2 (-e).toNat * Nat.pow 10 u.toNat)

/-- The least power of ten above `n · 2^e`. -/
def magnitude (n : Nat) (e : Int) : Int :=
  let candidates := (List.range 680).map fun i => Int.ofNat i - 340
  match candidates.find? fun u => let (top, bottom) := ratio n e u; top < bottom with
  | some u => u
  | none => 340

/-- The decimal of `length` digits nearest to `m · 2^q` that reads back as it. -/
def ofLength? (m : Nat) (q : Int) (length : Nat) : Option Digits :=
  let value := 4 * m
  let lower := if m = Nat.pow 2 52 then value - 1 else value - 2
  let upper := value + 2
  let unit := magnitude value (q - 2) - length
  let (top, bottom) := ratio value (q - 2) unit
  let low := (ratio lower (q - 2) unit).1
  let high := (ratio upper (q - 2) unit).1
  let readsBack := fun d =>
    if m % 2 = 0 then low ≤ d * bottom && d * bottom ≤ high
    else low < d * bottom && d * bottom < high
  let below := top / bottom
  let above := below + 1
  let remainder := top - below * bottom
  let pick := fun (d : Nat) => some ({ digits := d, exponent := unit } : Digits)
  match readsBack below, readsBack above with
  | true, false => pick below
  | false, true => pick above
  | false, false => none
  | true, true =>
    if 2 * remainder < bottom || (2 * remainder == bottom && below % 2 == 0) then pick below
    else pick above

/-- Drop trailing zeros, of which a decimal of 17 digits or fewer has at most 17. -/
def Digits.strip : Nat → Digits → Digits
  | 0, d => d
  | fuel + 1, d =>
    if d.digits % 10 = 0 ∧ d.digits ≠ 0 then
      strip fuel { digits := d.digits / 10, exponent := d.exponent + 1 }
    else d

/-- The shortest decimal that reads back as `m · 2^q`, for a positive `m`. -/
def shortest (m : Nat) (q : Int) : Digits :=
  match ((List.range 17).map (· + 1)).findSome? (ofLength? m q) with
  | some d => d.strip 18
  | none => { digits := m, exponent := 0 }

end IsaLogic.Decimal
