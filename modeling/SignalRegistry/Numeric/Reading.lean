/-
# Numbers read from text

A text is read as an integer or as a double; blanks around it do not count,
and a text of another form is no number.

An integer is digits with an optional sign and must fit 64 bits. A double is
`inf`, `infinity` or `nan` in any case, or digits with an optional point and an
optional exponent, all with an optional sign; the nearest double is taken.

Key definitions: `readInt64?`, `readDouble?`.
-/
import SignalRegistry.Numeric.Binary
import SignalRegistry.Text.Blank
import SignalRegistry.Text.Digits

namespace SignalRegistry

/-- A sign at the start, `true` for minus, and what follows it. -/
def takeSign : List Char → Bool × List Char
  | '-' :: cs => (true, cs)
  | '+' :: cs => (false, cs)
  | cs => (false, cs)

/-- The digits at the start, and what follows them. -/
def takeDigits (cs : List Char) : List Char × List Char :=
  (cs.takeWhile Char.isDigit, cs.dropWhile Char.isDigit)

/-- A signed run of digits within 64 bits. -/
def readInt64? (s : String) : Option Int64 :=
  let (negative, cs) := takeSign (Text.trim s.toList)
  if cs.isEmpty || !cs.all Char.isDigit then none
  else
    let n : Int := if negative then -(Digits.value cs : Int) else Digits.value cs
    if Int64.minValue.toInt ≤ n ∧ n ≤ Int64.maxValue.toInt then some (Int64.ofInt n) else none

/-- The exponent after the digits of a number: none written is 0. -/
def readExponent? : List Char → Option Int
  | [] => some 0
  | c :: cs =>
    let (negative, digits) := takeSign cs
    if (c == 'e' || c == 'E') && !digits.isEmpty && digits.all Char.isDigit then
      some (if negative then -(Digits.value digits : Int) else Digits.value digits)
    else none

/-- The double nearest to `n * 10 ^ place`. A leading digit far above or below
the range of doubles decides alone. -/
def Double.ofDecimal (negative : Bool) (n : Nat) (place : Int) : Double :=
  let leading := (Digits.digits n).length + place
  if n = 0 ∨ leading < -400 then .ofRatio negative 0 1
  else if 400 < leading then .ofNumeral (.infinite negative)
  else if 0 ≤ place then .ofRatio negative (n * Nat.pow 10 place.toNat) 1
  else .ofRatio negative n (Nat.pow 10 (-place).toNat)

/-- The nearest double of a decimal numeral, infinity or the number that is
none. -/
def readDouble? (s : String) : Option Double :=
  let (negative, cs) := takeSign (Text.trim s.toList)
  let word := String.ofList (cs.map Char.toLower)
  if word == "nan" then some (.ofNumeral (.nan negative))
  else if word == "inf" || word == "infinity" then some (.ofNumeral (.infinite negative))
  else
    let (whole, rest) := takeDigits cs
    let (fraction, rest) := match rest with
      | '.' :: rest => takeDigits rest
      | rest => ([], rest)
    if whole.isEmpty && fraction.isEmpty then none
    else
      (readExponent? rest).map fun exponent =>
        .ofDecimal negative (Digits.value (whole ++ fraction)) (exponent - fraction.length)

end SignalRegistry
