import Moore.Decimal.Power

/-
# Reading decimals

A decimal numeral is a significand and a power of ten.  Its binary64 value is found by
one multiplication or division by that power; significands are kept within 64 bits, so
digits that do not fit change the power of ten or are left out.
-/

namespace Moore.Decimal

/-- The values of 64 bits. -/
def bound64 : Nat := pow2 64

/-- Takes digits into the significand as long as it stays within 64 bits; returns it with
the digits left over. -/
def takeDigits (significand : Nat) : List Nat → Nat × List Nat
  | [] => (significand, [])
  | d :: ds =>
    if significand * 10 + d < bound64 then takeDigits (significand * 10 + d) ds
    else (significand, d :: ds)

/-- The powers of ten that binary64 can hold end here. -/
def maxPower : Nat := 308

def tenTo (n : Nat) : Float := Float.ofScientific 1 false n

/-- The binary64 value of `significand · 10 ^ exponent`, or `none` if it is infinite. -/
def scale (significand : Nat) (exponent : Int) : Option Float :=
  let f := significand.toUInt64.toFloat
  if 0 ≤ exponent then
    if exponent.toNat ≤ maxPower then
      let r := f * tenTo exponent.toNat
      if r.isInf then none else some r
    else if significand = 0 then some 0.0 else none
  else divide f (-exponent).toNat 4
where
  /-- Divides by a power of ten, in steps of the largest that binary64 can hold; after a
  few of them nothing is left. -/
  divide (f : Float) (n : Nat) : Nat → Option Float
    | 0 => some 0.0
    | steps + 1 =>
      if n ≤ maxPower then some (f / tenTo n)
      else if f == 0.0 then some f
      else divide (f / tenTo maxPower) (n - maxPower) steps

/-- The number that digits stand for. -/
def natOf (ds : List Nat) : Nat :=
  ds.foldl (fun n d => n * 10 + d) 0

/-- A decimal numeral, by its parts. -/
structure Numeral where
  negative : Bool := false
  /-- The digits before the point. -/
  whole : List Nat
  /-- The digits after the point. -/
  fraction : List Nat := []
  exponentNegative : Bool := false
  exponent : List Nat := []

/-- The binary64 value of a numeral, or `none` if it is too large. -/
def Numeral.toFloat? (n : Numeral) : Option Float :=
  let (s, wholeLeft) := takeDigits 0 n.whole
  let (s, fractionLeft) := takeDigits s n.fraction
  let shift : Int := wholeLeft.length - (n.fraction.length - fractionLeft.length : Nat)
  let e := natOf n.exponent
  let magnitude :=
    if e < pow2 31 then scale s (if n.exponentNegative then shift - e else shift + e)
    else if s ≠ 0 && !n.exponentNegative then none
    else some 0.0
  magnitude.map fun f => if n.negative then -f else f

/-- Whether the numeral, rounded to nearest, is finite in binary64. -/
def Numeral.isFinite (n : Numeral) : Bool :=
  let digits := (n.whole ++ n.fraction).dropWhile (· = 0)
  let e : Int := natOf n.exponent
  let shift : Int := (if n.exponentNegative then -e else e) - n.fraction.length
  let magnitude : Int := shift + digits.length
  if digits.isEmpty || magnitude < 300 then true
  else if 310 < magnitude then false
  else
    -- the first value that rounds to infinity is halfway above the largest finite one
    natOf digits * pow10 shift.toNat < (pow2 1024 - pow2 970) * pow10 (-shift).toNat

end Moore.Decimal
