/-
# Typed access to the bytes of a block

A signal at an address is a state byte and then its value, lowest byte first:

- a single boolean has no value bytes, it is bit 7 of the state byte;
- several booleans are packed, the first in the lowest bit;
- a text ends at its first zero byte;
- all other elements follow one another.

A signal that would run past the end of the block is not there: reading gives
`unavailable` and writing fails. A value is converted to the element type
before it is written; an `unavailable` value clears the state byte alone, and
items that are no element of the type leave the bytes of their place alone.

Key definitions: `Block.readSignal`, `Block.writeSignal`.
Key theorems: `Block.signalBytes?_isSome_iff`,
`Block.writeSignal_isOk_iff`, `Block.length_encodeBody`.
-/
import SignalRegistry.Block
import SignalRegistry.Value

namespace SignalRegistry

/-- A state byte and a value. -/
structure Reading where
  state : UInt8
  value : Value

/-- What is read where there is no signal. -/
def Reading.none : Reading := ⟨0, .unavailable⟩

namespace Octets

/-- The number that the bytes write, lowest byte first. -/
def toNat (bytes : Octets) : Nat := bytes.foldr (fun b n => b.toNat + 256 * n) 0

/-- The lowest `width` bytes of a number, lowest first. -/
def ofNat : Nat → Nat → Octets
  | 0, _ => []
  | width + 1, n => UInt8.ofNat n :: ofNat width (n / 256)

@[simp] theorem length_ofNat : ∀ (width n : Nat), (ofNat width n).length = width
  | 0, _ => rfl
  | width + 1, n => by simp [ofNat, length_ofNat width]

/-- Reading bytes undoes writing them, up to the width. -/
theorem toNat_ofNat : ∀ (width n : Nat), toNat (ofNat width n) = n % Nat.pow 256 width
  | 0, n => by simp [ofNat, toNat, Nat.mod_one]
  | width + 1, n => by
    have ih := toNat_ofNat width (n / 256)
    simp only [toNat] at ih
    simp only [toNat, ofNat, List.foldr_cons, ih, UInt8.toNat_ofNat']
    show n % 256 + 256 * (n / 256 % Nat.pow 256 width) = n % (Nat.pow 256 width * 256)
    rw [Nat.mul_comm (Nat.pow 256 width) 256, Nat.mod_mul]

end Octets

namespace ElementType

/-- One element from its bytes. -/
def decode (type : ElementType) (bytes : Octets) : Value :=
  let n := Octets.toNat bytes
  match type with
  | .boolean => .boolean (n != 0)
  | .char => .char (Int8.ofNat n)
  | .uchar => .uchar (UInt8.ofNat n)
  | .short => .short (Int16.ofNat n)
  | .ushort => .ushort (UInt16.ofNat n)
  | .int => .int (Int32.ofNat n)
  | .uint => .uint (UInt32.ofNat n)
  | .long => .long (Int64.ofNat n)
  | .float => .float ⟨UInt32.ofNat n⟩
  | .double => .double ⟨UInt64.ofNat n⟩
  | .str => .str (String.ofList (Utf8.decodeLossy bytes))

/-- The first `n` elements that the bytes hold. -/
def decodeMany (type : ElementType) : Nat → Octets → List Value
  | 0, _ => []
  | n + 1, bytes => type.decode (bytes.take type.size) :: type.decodeMany n (bytes.drop type.size)

end ElementType

namespace Value

/-- The bytes of a number; other values have none of their own. -/
def encode? : Value → Option Octets
  | char n => some (Octets.ofNat 1 n.toUInt8.toNat)
  | uchar n => some (Octets.ofNat 1 n.toNat)
  | short n => some (Octets.ofNat 2 n.toUInt16.toNat)
  | ushort n => some (Octets.ofNat 2 n.toNat)
  | int n => some (Octets.ofNat 4 n.toUInt32.toNat)
  | uint n => some (Octets.ofNat 4 n.toNat)
  | long n => some (Octets.ofNat 8 n.toUInt64.toNat)
  | float x => some (Octets.ofNat 4 x.bits.toNat)
  | double x => some (Octets.ofNat 8 x.bits.toNat)
  | unavailable | boolean _ | str _ | array _ => none

/-- A scalar has itself as its only item. -/
def items : Value → List Value
  | array items => items
  | v => [v]

/-- Writes the items one after the other over the bytes, `size` bytes for
each, as far as both last. -/
def encodeOver (size : Nat) : List Value → Octets → Octets
  | [], bytes => bytes
  | item :: items, bytes =>
    if bytes.length < size then bytes
    else
      let own := match item.encode? with
        | some own => if own.length = size then own else bytes.take size
        | none => bytes.take size
      own ++ encodeOver size items (bytes.drop size)

theorem length_encodeOver (size : Nat) : ∀ (items : List Value) (bytes : Octets),
    (encodeOver size items bytes).length = bytes.length
  | [], _ => rfl
  | item :: items, bytes => by
    unfold encodeOver
    split
    · rfl
    · rw [List.length_append, length_encodeOver size items, List.length_drop]
      have hlen : (bytes.take size).length = size := by rw [List.length_take]; omega
      split
      · split
        · rename_i h; omega
        · omega
      · omega

end Value

/-- The bit that says that a single boolean is on. -/
def booleanBit : UInt8 := 0x80

/-- A byte with the given bits, the lowest first. -/
def packByte (bits : List Bool) : UInt8 :=
  UInt8.ofNat (bits.foldr (fun on n => on.toNat + 2 * n) 0)

/-- `length` bytes with the given bits, and zero bits after them. -/
def packBits : Nat → List Bool → Octets
  | 0, _ => []
  | length + 1, bits => packByte (bits.take 8) :: packBits length (bits.drop 8)

@[simp] theorem length_packBits : ∀ (length : Nat) (bits : List Bool),
    (packBits length bits).length = length
  | 0, _ => rfl
  | length + 1, bits => by simp [packBits, length_packBits length]

/-- A bit of a run of packed bits. -/
def bitAt (bytes : Octets) (i : Nat) : Bool := (bytes.getD (i / 8) 0).toNat.testBit (i % 8)

namespace Block

/-- The bytes of a signal with its state byte, if they all lie in the block. -/
def signalBytes? (m : Block) (address n : Nat) (type : ElementType) : Option Octets :=
  let stop := address + type.extent n
  if stop ≤ sizeLimit ∧ stop ≤ m.size then some (m.readBytes address (type.extent n)) else none

/-- The value in the state byte and the bytes after it. -/
def decodeBody (type : ElementType) (n : Nat) (state : UInt8) (body : Octets) : Value :=
  match type with
  | .boolean =>
    if n ≤ 1 then .boolean (state &&& booleanBit != 0)
    else .array ((List.range n).map fun i => .boolean (bitAt body i))
  | .str => .str (String.ofList (Utf8.decodeLossy (body.takeWhile (· != 0))))
  | type => if n ≤ 1 then type.decode body else .array (type.decodeMany n body)

/-- The state byte and the bytes after it that hold a value of the type; what
the value does not reach keeps its bytes. -/
def encodeBody (type : ElementType) (n : Nat) (value : Value) (state : UInt8) (body : Octets) :
    UInt8 × Octets :=
  let isOn (item : Value) : Bool := item.toInt64 != 0
  match type with
  | .boolean =>
    if n ≤ 1 then
      ((if (value.items.head?.map isOn).getD false then state ||| booleanBit else state), body)
    else (state, packBits body.length ((value.items.take n).map isOn))
  | .str =>
    match value with
    | .str s =>
      let text := (Utf8.ofString s).take (min (n - 1) body.length)
      (state, text ++ List.replicate (body.length - text.length) 0)
    | _ => (state, body)
  | type => (state, Value.encodeOver type.size value.items body)

/-- The state and value of the signal at an address. -/
def readSignal (m : Block) (address n : Nat) (type : ElementType) : Reading :=
  match m.signalBytes? address n type with
  | some (state :: body) => ⟨state &&& ~~~booleanBit, decodeBody type n state body⟩
  | _ => .none

/-- Stores a value and state in the signal at an address. -/
def writeSignal (m : Block) (address n : Nat) (type : ElementType) (value : Value)
    (state : UInt8) : Except Error Block :=
  match m.signalBytes? address n type with
  | some (_ :: body) =>
    let (state, body) :=
      if value.isAvailable then
        encodeBody type n (value.convert type) (state &&& ~~~booleanBit) body
      else (0, body)
    .ok { m with bytes := overwrite m.bytes address (state :: body) }
  | _ => .error (.malformed .outOfRange)

theorem length_encodeBody (type : ElementType) (n : Nat) (value : Value) (state : UInt8)
    (body : Octets) : (encodeBody type n value state body).2.length = body.length := by
  unfold encodeBody
  simp only
  split
  · split
    · rfl
    · exact length_packBits _ _
  · split
    · simp only [List.length_append, List.length_replicate, List.length_take]
      omega
    · rfl
  · exact Value.length_encodeOver _ _ _

theorem signalBytes?_isSome_iff (m : Block) (address n : Nat) (type : ElementType) :
    (m.signalBytes? address n type).isSome = true ↔
      address + type.extent n ≤ sizeLimit ∧ address + type.extent n ≤ m.size := by
  unfold signalBytes?
  simp only
  split <;> simp_all

/-- The bytes of a signal are as many as its extent, one at least. -/
theorem exists_cons_of_signalBytes? {m : Block} {address n : Nat} {type : ElementType}
    {bytes : Octets} (h : m.signalBytes? address n type = some bytes) :
    ∃ state body, bytes = state :: body ∧ body.length + 1 = type.extent n := by
  unfold signalBytes? at h
  simp only at h
  split at h
  · rename_i hle
    obtain rfl := Option.some.inj h
    have hlen : (m.readBytes address (type.extent n)).length = type.extent n := by
      simp only [readBytes, List.length_take, List.length_drop, Block.size] at *
      omega
    have hpos := type.extent_pos n
    cases hb : m.readBytes address (type.extent n) with
    | nil => rw [hb] at hlen; simp at hlen; omega
    | cons state body => exact ⟨state, body, rfl, by rw [hb] at hlen; simpa using hlen⟩
  · simp at h

/-- A write succeeds exactly when the signal lies in the block, whatever the
value. -/
theorem writeSignal_isOk_iff (m : Block) (address n : Nat) (type : ElementType) (value : Value)
    (state : UInt8) :
    (m.writeSignal address n type value state).isOk = true ↔
      (m.signalBytes? address n type).isSome = true := by
  unfold writeSignal
  cases h : m.signalBytes? address n type with
  | none => simp [Except.isOk, Except.toBool]
  | some bytes =>
    obtain ⟨s, body, rfl, _⟩ := exists_cons_of_signalBytes? h
    simp [Except.isOk, Except.toBool]

end Block
end SignalRegistry
