/-
# The shortest decimal text of a double

The texts that read back as a double `x` are those of the numbers between the
midpoints to its two neighbours, the midpoints themselves included when the
last bit of `x` is even. Among them the shortest is a point of the coarsest
decimal grid that has a point there; of two such points the nearer is taken,
and of two equally near the larger.

The text is positional whatever the magnitude, with no point in an integer.

Key definitions: `Double.shortest?`, `Double.text`.
-/
import SignalRegistry.Numeric.Binary
import SignalRegistry.Text.Digits

namespace SignalRegistry

/-- A number with the ends of the interval that rounds to it, as three
numerators over one denominator. -/
structure Roundings where
  lower : Nat
  middle : Nat
  upper : Nat
  denominator : Nat
  /-- The ends round to the number too. -/
  closed : Bool

namespace Roundings

/-- The interval of the double `significand * 2 ^ exponent`. Below a power of
two the doubles are twice as dense. -/
def ofDouble (significand : Nat) (exponent : Int) : Roundings :=
  let atPower := significand == Nat.pow 2 BinaryFormat.double.fractionBits
    && BinaryFormat.double.leastExponent < exponent
  let unit := (scaled 1 1 (exponent - 2)).1
  { lower := (4 * significand - if atPower then 1 else 2) * unit
    middle := 4 * significand * unit
    upper := (4 * significand + 2) * unit
    denominator := (scaled 1 1 (exponent - 2)).2
    closed := significand % 2 == 0 }

/-- The interval seen from the grid of multiples of `10 ^ place`. -/
def onGrid (r : Roundings) (place : Int) : Roundings :=
  if 0 ≤ place then { r with denominator := r.denominator * Nat.pow 10 place.toNat }
  else
    let unit := Nat.pow 10 (-place).toNat
    { r with lower := r.lower * unit, middle := r.middle * unit, upper := r.upper * unit }

/-- An integer lies in the interval. -/
def holds (r : Roundings) (n : Nat) : Bool :=
  let scaled := n * r.denominator
  if r.closed then r.lower ≤ scaled && scaled ≤ r.upper else r.lower < scaled && scaled < r.upper

/-- The integer in the interval that is nearest to its number, the larger of
two equally near. -/
def nearest? (r : Roundings) : Option Nat :=
  let below := r.middle / r.denominator
  let above := below + 1
  let rest := r.middle % r.denominator
  match r.holds below, r.holds above with
  | true, true => if 2 * rest < r.denominator then some below else some above
  | true, false => some below
  | false, true => some above
  | false, false => none

end Roundings

namespace Double

/-- The decimal places from the coarsest to the finest a double can need. -/
def places : List Int := (List.range 640).map fun (i : Nat) => 310 - (i : Int)

/-- The shortest decimal `digits * 10 ^ place` that reads back as the number
`significand * 2 ^ exponent`. -/
def shortest? (significand : Nat) (exponent : Int) : Option (Nat × Int) :=
  let interval := Roundings.ofDouble significand exponent
  places.findSome? fun place => (interval.onGrid place).nearest?.map fun n => (n, place)

/-- The digits of `n * 10 ^ place` with a decimal point where one is needed. -/
def positional (n : Nat) (place : Int) : List Char :=
  let digits := Digits.digits n
  if 0 ≤ place then digits ++ List.replicate place.toNat '0'
  else
    let after := (-place).toNat
    let padded := List.replicate (after + 1 - digits.length) '0' ++ digits
    padded.take (padded.length - after) ++ '.' :: padded.drop (padded.length - after)

/-- The text of a double: `NaN`, `inf`, or its shortest decimal. -/
def text (x : Double) : String :=
  match x.numeral with
  | .nan _ => "NaN"
  | .infinite negative => if negative then "-inf" else "inf"
  | .finite negative significand exponent =>
    let magnitude :=
      if significand = 0 then ['0']
      else
        match shortest? significand exponent with
        | some (n, place) => positional n place
        | none => []
    String.ofList (if negative then '-' :: magnitude else magnitude)

end Double
end SignalRegistry
