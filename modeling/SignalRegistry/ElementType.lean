/-
# Element types of signals

A signal has one or more elements of one type. In a block it occupies its
extent: a state byte and then the value. A single boolean is kept in the
state byte, several are packed eight to a byte, a text has one byte per
count, and all other types have elements of a fixed size. Sizes stop at
`sizeLimit`, the largest a 64-bit machine counts.

Key definitions: `ElementType`, `ElementType.extent`.
Key theorems: `ElementType.ofName?_name`, `ElementType.extent_pos`.
-/

namespace SignalRegistry

/-- The largest size or address. -/
def sizeLimit : Nat := UInt64.size - 1

/-- The type of the elements of a signal. -/
inductive ElementType where
  | boolean
  | char
  | uchar
  | short
  | ushort
  | int
  | uint
  | long
  | float
  | double
  | str
deriving DecidableEq, Repr

namespace ElementType

/-- The name a table of signals uses. -/
def name : ElementType → String
  | .boolean => "boolean"
  | .char => "char"
  | .uchar => "uchar"
  | .short => "short"
  | .ushort => "ushort"
  | .int => "int"
  | .uint => "uint"
  | .long => "long"
  | .float => "float"
  | .double => "double"
  | .str => "str"

/-- The type of a name; `int64` is another name for `long`. -/
def ofName? : String → Option ElementType
  | "boolean" => some .boolean
  | "char" => some .char
  | "uchar" => some .uchar
  | "short" => some .short
  | "ushort" => some .ushort
  | "int" => some .int
  | "uint" => some .uint
  | "long" => some .long
  | "int64" => some .long
  | "float" => some .float
  | "double" => some .double
  | "str" => some .str
  | _ => none

/-- Bytes of one element; booleans and texts count as single bytes. -/
def size : ElementType → Nat
  | .boolean | .char | .uchar | .str => 1
  | .short | .ushort => 2
  | .int | .uint | .float => 4
  | .long | .double => 8

/-- Bytes of a signal of `n` elements, with its state byte. No elements count
as one. -/
def extent (type : ElementType) (n : Nat) : Nat :=
  match type with
  | .boolean => if n ≤ 1 then 1 else (n + 7) / 8 + 1
  | _ => min (max n 1 * type.size + 1) sizeLimit

theorem ofName?_name (type : ElementType) : ofName? type.name = some type := by
  cases type <;> rfl

theorem size_pos (type : ElementType) : 0 < type.size := by cases type <;> decide

/-- Every signal has a state byte. -/
theorem extent_pos (type : ElementType) (n : Nat) : 0 < type.extent n := by
  unfold extent
  split
  · split <;> omega
  · simp only [sizeLimit, UInt64.size]; omega

end ElementType
end SignalRegistry
