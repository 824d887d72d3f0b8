import Moore.Decimal.Power

/-
# The shortest decimal of a binary64 value

A finite value stands for all reals that round to it.  Among the decimals in that
interval those with the fewest digits are wanted, and of these the nearest.  The search
tries, for one digit, two digits and so on, the two neighbours of the value that have so
many digits.
-/

namespace Moore.Decimal

/-- The magnitude `m · 2 ^ q` of a finite binary64 value. -/
structure Binary where
  m : Nat
  q : Int
  /-- The next value below is half as far away as the next one above. -/
  narrowBelow : Bool

/-- The magnitude of a finite value. -/
def Binary.ofFloat (x : Float) : Binary :=
  let bits := x.toBits.toNat
  let e : Nat := bits / pow2 52 % pow2 11
  let f : Nat := bits % pow2 52
  if e = 0 then ⟨f, -1074, false⟩ else ⟨pow2 52 + f, (e : Int) - 1075, f = 0 && 1 < e⟩

/-- Compares `a · 10 ^ i` with `b · 2 ^ j`. -/
def compareScaled (a : Nat) (i : Int) (b : Nat) (j : Int) : Ordering :=
  compare (a * pow10 i.toNat * pow2 (-j).toNat) (b * pow2 j.toNat * pow10 (-i).toNat)

/-- Whether `digits · 10 ^ exponent` rounds to the value. -/
def Binary.readsBack (x : Binary) (digits : Nat) (exponent : Int) : Bool :=
  let low := compareScaled digits exponent (4 * x.m - if x.narrowBelow then 1 else 2) (x.q - 2)
  let high := compareScaled digits exponent (4 * x.m + 2) (x.q - 2)
  if x.m % 2 = 0 then low != .lt && high != .gt else low == .gt && high == .lt

/-- The largest whole number of units `10 ^ exponent` that is at most the value. -/
def Binary.floorTo (x : Binary) (exponent : Int) : Nat :=
  (x.m * pow2 x.q.toNat * pow10 (-exponent).toNat) / (pow2 (-x.q).toNat * pow10 exponent.toNat)

/-- Whether the value is nearer to `n + 1` than to `n` units `10 ^ exponent`; a tie goes to
the even number. -/
def Binary.roundsUp (x : Binary) (n : Nat) (exponent : Int) : Bool :=
  match compareScaled (2 * n + 1) exponent x.m (x.q + 1) with
  | .lt => true
  | .gt => false
  | .eq => n % 2 = 1

/-- The least `k` with the value below `10 ^ k`, given that the value is not zero. -/
def Binary.scale (x : Binary) : Int :=
  let guess : Int := ((x.m.log2 : Int) + x.q) * 30103 / 100000 - 1
  let above (k : Int) : Bool := compareScaled 1 k x.m x.q == .gt
  if above guess then guess
  else if above (guess + 1) then guess + 1
  else if above (guess + 2) then guess + 2
  else guess + 3

/-- The digits of a decimal without needless zeros at the end, and the power of ten of
their unit. -/
def stripZeros (digits : Nat) (exponent : Int) : Nat → Nat × Int
  | 0 => (digits, exponent)
  | bound + 1 =>
    if digits % 10 = 0 && digits ≠ 0 then stripZeros (digits / 10) (exponent + 1) bound
    else (digits, exponent)

/-- The shortest decimal that rounds to a value other than zero, as digits and the power of
ten of the last one. -/
def Binary.shortest (x : Binary) : Nat × Int :=
  let k := x.scale
  let found := (List.range 17).findSome? fun i =>
    let exponent := k - (i + 1 : Nat)
    let below := x.floorTo exponent
    match x.readsBack below exponent, x.readsBack (below + 1) exponent with
    | true, true => some (if x.roundsUp below exponent then below + 1 else below, exponent)
    | true, false => some (below, exponent)
    | false, true => some (below + 1, exponent)
    | false, false => none
  match found with
  | some (digits, exponent) => stripZeros digits exponent 17
  | none => (x.m * pow2 x.q.toNat * Nat.pow 5 (-x.q).toNat, min x.q 0)

/-- Lays out digits: positionally while the leading digit stands for a power of ten from
`10 ^ -5` to `10 ^ 15`, and with a signed exponent otherwise. -/
def layout (digits : Nat) (exponent : Int) : String :=
  let ds := toString digits
  let n : Int := ds.length
  let point := n + exponent
  if 0 ≤ exponent && point ≤ 16 then
    ds ++ String.ofList (List.replicate exponent.toNat '0') ++ ".0"
  else if 0 < point && point ≤ 16 then
    String.ofList (ds.toList.take point.toNat) ++ "." ++ String.ofList (ds.toList.drop point.toNat)
  else if -5 < point && point ≤ 0 then
    "0." ++ String.ofList (List.replicate (-point).toNat '0') ++ ds
  else
    let fraction := ds.toList.drop 1
    String.ofList (ds.toList.take 1) ++
      (if fraction.isEmpty then "" else "." ++ String.ofList fraction) ++
      "e" ++ (if 0 < point then "+" else "-") ++ toString (point - 1).natAbs

/-- The text of a finite value. -/
def text (x : Float) : String :=
  let sign := if x.toBits.toNat < pow2 63 then "" else "-"
  let b := Binary.ofFloat x
  if b.m = 0 then sign ++ "0.0"
  else sign ++ layout b.shortest.1 b.shortest.2

end Moore.Decimal
