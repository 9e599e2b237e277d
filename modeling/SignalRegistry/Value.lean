/-
# Signal values

A value read from or written to a signal: one element, the elements of an
array, a text, or nothing when the signal cannot be reached. Every value has
an integer view and a floating point view, and can be converted to an element
type (`Value.convert`).

Conversions between integers wrap, those from floating point to integers stop
at the ends of 64 bits first, and a text counts as the number it writes, or as
0. Conversion to an element type goes item by item through an array, except
that a text is made of the whole.

Key definitions: `Value`, `Value.toInt64`, `Value.toDouble`, `Value.convert`.
Key theorems: `Value.convert_unavailable`, `Value.convert_array`.
-/
import SignalRegistry.ElementType
import SignalRegistry.Numeric.Reading
import SignalRegistry.Numeric.Shortest

namespace SignalRegistry

/-- What a signal holds. -/
inductive Value where
  /-- The signal could not be found, or its block is gone. -/
  | unavailable
  | boolean (on : Bool)
  | char (n : Int8)
  | uchar (n : UInt8)
  | short (n : Int16)
  | ushort (n : UInt16)
  | int (n : Int32)
  | uint (n : UInt32)
  | long (n : Int64)
  | float (x : Single)
  | double (x : Double)
  | str (text : String)
  | array (items : List Value)

namespace Value

def isAvailable : Value → Bool
  | unavailable => false
  | _ => true

/-- The integer view: floating point is cut to its integer part, and what is
no number is 0. -/
def toInt64 : Value → Int64
  | boolean on => if on then 1 else 0
  | char n => Int64.ofInt n.toInt
  | uchar n => Int64.ofNat n.toNat
  | short n => Int64.ofInt n.toInt
  | ushort n => Int64.ofNat n.toNat
  | int n => Int64.ofInt n.toInt
  | uint n => Int64.ofNat n.toNat
  | long n => n
  | float x => x.toInt64
  | double x => x.toInt64
  | str s => (readInt64? s).getD 0
  | unavailable | array _ => 0

/-- The floating point view. -/
def toDouble : Value → Double
  | float x => x.toDouble
  | double x => x
  | str s => (readDouble? s).getD .zero
  | v => .ofInt v.toInt64.toInt

/-- The text of a value: that of its number, or of its integer view. -/
def toText : Value → String
  | str s => s
  | float x => x.toDouble.text
  | double x => x.text
  | v => Digits.ofInt v.toInt64.toInt

/-- A single element converted to a type. -/
def convertScalar (type : ElementType) (v : Value) : Value :=
  match type with
  | .boolean => boolean (v.toInt64 != 0 || !v.toDouble.isZero)
  | .char => char v.toInt64.toInt8
  | .uchar => uchar (UInt8.ofInt v.toInt64.toInt)
  | .short => short v.toInt64.toInt16
  | .ushort => ushort (UInt16.ofInt v.toInt64.toInt)
  | .int => int v.toInt64.toInt32
  | .uint => uint (UInt32.ofInt v.toInt64.toInt)
  | .long => long v.toInt64
  | .float => float v.toDouble.toSingle
  | .double => double v.toDouble
  | .str => str v.toText

/-- The value converted to an element type. -/
def convert (type : ElementType) (v : Value) : Value :=
  match v with
  | unavailable => unavailable
  | array items =>
    if type = .str then str (array items).toText else array (items.map (convert type))
  | v => convertScalar type v

@[simp] theorem convert_unavailable (type : ElementType) : unavailable.convert type = unavailable := by
  rw [convert]

/-- An array is converted item by item, except to a text. -/
theorem convert_array {type : ElementType} (h : type ≠ .str) (items : List Value) :
    (array items).convert type = array (items.map (convert type)) := by
  rw [convert, if_neg h]

/-- A text stays as it is among texts. -/
@[simp] theorem convert_str (s : String) : (str s).convert .str = str s := by
  simp [convert, convertScalar, toText]

end Value
end SignalRegistry
