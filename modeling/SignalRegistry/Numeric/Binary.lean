/-
# Binary floating point in exact arithmetic

A format of binary floating point is given by the widths of its fraction and
exponent fields. `decode` reads a bit pattern as an exact number and `encode`
rounds an exact number to the nearest one of the format, a tie to the one with
an even last bit. Everything is computed on natural numbers: a magnitude is a
fraction `num / den`, and the nearest pattern is found by one division.

`Single` and `Double` are the two formats in use, kept as their bits.

Key definitions: `BinaryFormat.decode`, `BinaryFormat.encode`,
`Double.ofInt`, `Double.toInt64`, `Single.toDouble`, `Double.toSingle`.
-/

namespace SignalRegistry

/-- The widths of the two fields below the sign bit. -/
structure BinaryFormat where
  fractionBits : Nat
  exponentBits : Nat

/-- What a bit pattern stands for; a finite number is
`significand * 2 ^ exponent` with a sign. -/
inductive Numeral where
  | nan (negative : Bool)
  | infinite (negative : Bool)
  | finite (negative : Bool) (significand : Nat) (exponent : Int)
deriving DecidableEq

/-- A fraction scaled by a power of two: numerator and denominator. -/
def scaled (num den : Nat) (exponent : Int) : Nat × Nat :=
  if 0 ≤ exponent then (num * Nat.pow 2 exponent.toNat, den) else (num, den * Nat.pow 2 (-exponent).toNat)

/-- The integer nearest to `num / den`, the even one of two equally near. -/
def nearestEven (num den : Nat) : Nat :=
  let q := num / den
  let r := num % den
  if den < 2 * r ∨ (2 * r = den ∧ q % 2 = 1) then q + 1 else q

/-- The exponent of the power of two at or below `num / den`. -/
def floorLog2 (num den : Nat) : Int :=
  let guess : Int := (Nat.log2 num : Int) - Nat.log2 den
  let (n, d) := scaled num den (-guess)
  if d ≤ n then guess else guess - 1

namespace BinaryFormat

def single : BinaryFormat := ⟨23, 8⟩

def double : BinaryFormat := ⟨52, 11⟩

variable (f : BinaryFormat)

/-- The exponent of the last fraction bit of the smallest numbers. -/
def leastExponent : Int := 2 - Nat.pow 2 (f.exponentBits - 1) - f.fractionBits

/-- The pattern of infinity, above those of all finite magnitudes. -/
def infinity : Nat := (Nat.pow 2 f.exponentBits - 1) * Nat.pow 2 f.fractionBits

/-- The pattern that is written for what is no number. -/
def quietNan : Nat := f.infinity + Nat.pow 2 (f.fractionBits - 1)

/-- The weight of the sign bit. -/
def signWeight : Nat := Nat.pow 2 (f.exponentBits + f.fractionBits)

/-- The number of a pattern, exactly. -/
def decode (bits : Nat) : Numeral :=
  let negative := f.signWeight ≤ bits
  let magnitude := bits % f.signWeight
  let field := magnitude / Nat.pow 2 f.fractionBits
  let fraction := magnitude % Nat.pow 2 f.fractionBits
  if f.infinity < magnitude then .nan negative
  else if magnitude = f.infinity then .infinite negative
  else if field = 0 then .finite negative fraction f.leastExponent
  else .finite negative (Nat.pow 2 f.fractionBits + fraction) (f.leastExponent + field - 1)

/-- The pattern of the magnitude nearest to `num / den`. Patterns of
magnitudes are in order and evenly spaced between two powers of two, so one
division gives the distance from the pattern of the power below. -/
def round (num den : Nat) : Nat :=
  if num = 0 then 0
  else
    let exponent := max f.leastExponent (floorLog2 num den - f.fractionBits)
    let (n, d) := scaled num den (-exponent)
    min f.infinity ((exponent - f.leastExponent).toNat * Nat.pow 2 f.fractionBits + nearestEven n d)

/-- The pattern of a magnitude with a sign. -/
def signed (negative : Bool) (magnitude : Nat) : Nat :=
  if negative then f.signWeight + magnitude else magnitude

/-- The pattern of the nearest number of the format. -/
def encode : Numeral → Nat
  | .nan negative => f.signed negative f.quietNan
  | .infinite negative => f.signed negative f.infinity
  | .finite negative significand exponent =>
    let (n, d) := scaled significand 1 exponent
    f.signed negative (f.round n d)

end BinaryFormat

/-- A number of single precision, kept as its bits. -/
structure Single where
  bits : UInt32
deriving DecidableEq

/-- A number of double precision, kept as its bits. -/
structure Double where
  bits : UInt64
deriving DecidableEq

namespace Double

def numeral (x : Double) : Numeral := BinaryFormat.double.decode x.bits.toNat

def ofNumeral (n : Numeral) : Double := ⟨UInt64.ofNat (BinaryFormat.double.encode n)⟩

/-- The double nearest to an integer. -/
def ofInt (i : Int) : Double := ofNumeral (.finite (i < 0) i.natAbs 0)

/-- The double nearest to `num / den`, with a sign. -/
def ofRatio (negative : Bool) (num den : Nat) : Double :=
  ⟨UInt64.ofNat (BinaryFormat.double.signed negative (BinaryFormat.double.round num den))⟩

def zero : Double := ⟨0⟩

/-- Zero of either sign. -/
def isZero (x : Double) : Bool := x.bits.toNat % BinaryFormat.double.signWeight == 0

/-- The integer part; numbers out of range go to the nearest end, and what is
no number to 0. -/
def toInt64 (x : Double) : Int64 :=
  match x.numeral with
  | .nan _ => 0
  | .infinite negative => if negative then Int64.minValue else Int64.maxValue
  | .finite negative significand exponent =>
    let (n, d) := scaled significand 1 exponent
    let whole : Int := if negative then -((n / d : Nat) : Int) else (n / d : Nat)
    Int64.ofInt (max Int64.minValue.toInt (min whole Int64.maxValue.toInt))

end Double

namespace Single

def numeral (x : Single) : Numeral := BinaryFormat.single.decode x.bits.toNat

def ofNumeral (n : Numeral) : Single := ⟨UInt32.ofNat (BinaryFormat.single.encode n)⟩

/-- The same number in double precision. -/
def toDouble (x : Single) : Double := .ofNumeral x.numeral

end Single

/-- The nearest number of single precision. -/
def Double.toSingle (x : Double) : Single := .ofNumeral x.numeral

/-- The integer part in 64 bits. -/
def Single.toInt64 (x : Single) : Int64 := x.toDouble.toInt64

end SignalRegistry
