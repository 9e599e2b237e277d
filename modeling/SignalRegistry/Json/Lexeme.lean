/-
# Strings and numbers of JSON

A document is read as a stream of bytes, and the first fault met decides. Text
and numbers can be read in two ways. Read for its value, a string must be
UTF-8 and pair its surrogates, and a number must be finite. Passed over, it
need only be recognised to its end. Each lexeme gives both answers: its value
or the fault in it, and the bytes after it or the fault on the way there.

Key definitions: `Json.Fault`, `Json.scanString`, `Json.scanNumber`.
-/
import SignalRegistry.Numeric.Binary
import SignalRegistry.Text.Utf8

namespace SignalRegistry
namespace Json

/-- Why a document cannot be read. -/
inductive Fault where
  /-- It is well-formed so far, but of another shape than expected. -/
  | mismatch
  /-- It ends too early. -/
  | ended
  /-- It is not well-formed. -/
  | illFormed
deriving DecidableEq, Repr

/-- The byte of an ASCII character. -/
def byte (c : Char) : UInt8 := c.toUInt8

def isBlank (b : UInt8) : Bool := b == 0x20 || b == 0x09 || b == 0x0A || b == 0x0D

def skipBlank (bytes : Octets) : Octets := bytes.dropWhile isBlank

/-! ### Strings -/

/-- A part of a string: a byte as it is, an escaped character, or a UTF-16
unit written in hexadecimal. -/
inductive Piece where
  | byte (b : UInt8)
  | char (c : Char)
  | unit (n : Nat)

/-- The character of an escape of one letter. -/
def escape? (b : UInt8) : Option Char :=
  if b = byte '"' then some '"'
  else if b = byte '\\' then some '\\'
  else if b = byte '/' then some '/'
  else if b = byte 'b' then some (Char.ofNat 0x08)
  else if b = byte 'f' then some (Char.ofNat 0x0C)
  else if b = byte 'n' then some '\n'
  else if b = byte 'r' then some '\r'
  else if b = byte 't' then some '\t'
  else none

def hexDigit? (b : UInt8) : Option Nat :=
  if byte '0' ≤ b ∧ b ≤ byte '9' then some (b.toNat - 48)
  else if byte 'a' ≤ b ∧ b ≤ byte 'f' then some (b.toNat - 87)
  else if byte 'A' ≤ b ∧ b ≤ byte 'F' then some (b.toNat - 55)
  else none

/-- The number of four hexadecimal digits. -/
def hexUnit? (a b c d : UInt8) : Option Nat := do
  return ((← hexDigit? a) * 16 + (← hexDigit? b)) * 256 + (← hexDigit? c) * 16 + (← hexDigit? d)

/-- The pieces of a string after its opening quote, and the bytes after its
closing quote. -/
def pieces : Octets → List Piece × Except Fault Octets
  | [] => ([], .error .ended)
  | b :: rest =>
    if b = byte '"' then ([], .ok rest)
    else if b = byte '\\' then
      match rest with
      | [] => ([], .error .ended)
      | e :: rest =>
        if e = byte 'u' then
          match rest with
          | h1 :: h2 :: h3 :: h4 :: rest =>
            match hexUnit? h1 h2 h3 h4 with
            | some n =>
              let (more, after) := pieces rest
              (.unit n :: more, after)
            | none => ([], .error .illFormed)
          | _ => ([], .error .ended)
        else
          match escape? e with
          | some c =>
            let (more, after) := pieces rest
            (.char c :: more, after)
          | none => ([], .error .illFormed)
    else if b < 0x20 then ([], .error .illFormed)
    else
      let (more, after) := pieces rest
      (.byte b :: more, after)

def isLeading (n : Nat) : Bool := 0xD800 ≤ n && n ≤ 0xDBFF

def isTrailing (n : Nat) : Bool := 0xDC00 ≤ n && n ≤ 0xDFFF

/-- The bytes of a string. A leading surrogate must be followed at once by a
trailing one; `fault?` is what ended the pieces, if not a closing quote. -/
def assemble (fault? : Option Fault) : List Piece → Except Fault Octets
  | [] =>
    match fault? with
    | some fault => .error fault
    | none => .ok []
  | .byte b :: rest => (b :: ·) <$> assemble fault? rest
  | .char c :: rest => (String.utf8EncodeChar c ++ ·) <$> assemble fault? rest
  | .unit n :: rest =>
    if isTrailing n then .error .illFormed
    else if isLeading n then
      match rest with
      | .unit m :: rest =>
        if isTrailing m then
          let c := Char.ofNat ((n - 0xD800) * 0x400 + (m - 0xDC00) + 0x10000)
          (String.utf8EncodeChar c ++ ·) <$> assemble fault? rest
        else .error .illFormed
      | [] => .error (fault?.getD .illFormed)
      | _ => .error .illFormed
    else (String.utf8EncodeChar (Char.ofNat n) ++ ·) <$> assemble fault? rest

/-- The string after an opening quote: its value, and the bytes after it. -/
def scanString (bytes : Octets) : Except Fault String × Except Fault Octets :=
  let (parts, after) := pieces bytes
  let fault? := match after with
    | .error fault => some fault
    | .ok _ => none
  let value := do
    match Utf8.toString? (← assemble fault? parts) with
    | some s => .ok s
    | none => .error .illFormed
  (value, after)

/-! ### Numbers -/

/-- The value of a number as far as an integer type needs it. -/
inductive Number where
  | natural (n : Nat)
  | negative (n : Nat)
  /-- It has a fraction or an exponent, is negative zero, or is too large for
  64 bits. -/
  | real

/-- A number taken apart. -/
structure NumberText where
  negative : Bool
  whole : List Nat
  fraction : List Nat
  /-- The sign and the digits of the exponent, if it is written. -/
  exponent : Option (Bool × List Nat)
  /-- There is neither point nor exponent. -/
  plain : Bool

def isDigit (b : UInt8) : Bool := byte '0' ≤ b && b ≤ byte '9'

/-- The digits at the start, and the bytes after them. -/
def takeDigits (bytes : Octets) : List Nat × Octets :=
  ((bytes.takeWhile isDigit).map fun b => b.toNat - 48, bytes.dropWhile isDigit)

/-- A byte that had to be a digit is missing, or is none. -/
def digitFault (bytes : Octets) : Fault := if bytes.isEmpty then .ended else .illFormed

/-- The fraction after a point; no point writes an empty one. -/
def takeFraction (bytes : Octets) : Except Fault (List Nat × Octets × Bool) :=
  match bytes with
  | b :: rest =>
    if b = byte '.' then
      let (digits, after) := takeDigits rest
      if digits.isEmpty then .error (digitFault after) else .ok (digits, after, true)
    else .ok ([], bytes, false)
  | [] => .ok ([], [], false)

/-- The exponent with its sign, if one is written. -/
def takeExponent (bytes : Octets) : Except Fault (Option (Bool × List Nat) × Octets) :=
  match bytes with
  | b :: rest =>
    if b = byte 'e' ∨ b = byte 'E' then
      let (negative, rest) := match rest with
        | s :: more =>
          if s = byte '-' then (true, more) else if s = byte '+' then (false, more) else (false, rest)
        | [] => (false, [])
      let (digits, after) := takeDigits rest
      if digits.isEmpty then .error (digitFault after) else .ok (some (negative, digits), after)
    else .ok (none, bytes)
  | [] => .ok (none, [])

/-- Takes a number apart. The whole part has no needless zero. -/
def takeNumber (bytes : Octets) : Except Fault (NumberText × Octets) := do
  let (negative, bytes) := match bytes with
    | b :: rest => if b = byte '-' then (true, rest) else (false, bytes)
    | [] => (false, [])
  let (whole, after) := takeDigits bytes
  if whole.isEmpty then throw (digitFault after)
  if whole.head? = some 0 ∧ 1 < whole.length then throw .illFormed
  let (fraction, after, pointed) ← takeFraction after
  let (exponent, after) ← takeExponent after
  return (⟨negative, whole, fraction, exponent, !pointed && exponent.isNone⟩, after)

/-- The number that digits write. -/
def numeral (digits : List Nat) : Nat := digits.foldl (fun n d => 10 * n + d) 0

/-- The digits taken into a number as long as it fits 64 bits, and how many
were left. -/
def absorb : Nat → List Nat → Nat × Nat
  | n, [] => (n, 0)
  | n, d :: ds => if 10 * n + d < UInt64.size then absorb (10 * n + d) ds else (n, ds.length + 1)

/-- The product of the doubles nearest to `n` and to `10 ^ place` is finite. -/
def isFinite (n place : Nat) : Bool :=
  match (Double.ofInt n).numeral, (Double.ofInt (Nat.pow 10 place)).numeral with
  | .finite _ m e, .finite _ m' e' =>
    let (num, den) := scaled (m * m') 1 (e + e')
    BinaryFormat.double.round num den < BinaryFormat.double.infinity
  | _, _ => false

/-- The number does not exceed the doubles. Its digits count as far as 64
bits hold them; an exponent of more than 31 bits is taken for its sign alone. -/
def NumberText.isInRange (t : NumberText) : Bool :=
  let (n, left) := absorb 0 t.whole
  let (n, dropped) := absorb n t.fraction
  let place : Int := left - (t.fraction.length - dropped : Int)
  let (negative, digits) := t.exponent.getD (false, [])
  let exponent := numeral digits
  if n = 0 then true
  else if Nat.pow 2 31 ≤ exponent then negative
  else
    let place : Int := if negative then place - exponent else place + exponent
    place < 0 || (place ≤ 308 && isFinite n place.toNat)

/-- The value of a number; one that exceeds the doubles is a fault of form. -/
def NumberText.value (t : NumberText) : Except Fault Number :=
  let n := numeral t.whole
  if t.plain && !t.negative && n < UInt64.size then .ok (.natural n)
  else if t.plain && t.negative && 0 < n && n ≤ Nat.pow 2 63 then .ok (.negative n)
  else if t.isInRange then .ok .real
  else .error .illFormed

/-- The number at the start of the bytes: its value, and the bytes after it.
Passed over, a number that breaks off is ill-formed even at the end. -/
def scanNumber (bytes : Octets) : Except Fault Number × Except Fault Octets :=
  match takeNumber bytes with
  | .ok (text, after) => (text.value, .ok after)
  | .error fault => (.error fault, .error .illFormed)

end Json
end SignalRegistry
