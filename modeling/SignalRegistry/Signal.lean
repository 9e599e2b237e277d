/-
# Signals

A signal is a named place in a block of a device: an address, a count of
elements and their type. A network keeps the signals of all its devices, so a
signal names its block and device.

Key definitions: `Signal`, `Signal.IsShort`, `Signal.liesIn`, `Signal.agrees`,
`Signal.stop`.
-/
import SignalRegistry.ElementType
import SignalRegistry.Index
import SignalRegistry.Path

namespace SignalRegistry

/-- A place in a block, by name. -/
structure Signal where
  name : SignalName
  block : BlockName
  device : BlockName
  number : UInt32
  /-- Where the state byte lies in the block. -/
  address : UInt32
  /-- How many elements there are; 0 and 1 are a scalar. -/
  count : UInt32
  /-- The columns of a matrix, 1 otherwise. -/
  columns : UInt32 := 1
  type : ElementType
deriving DecidableEq

namespace Signal

/-- A signal with names cut to size and one column. -/
def ofNames (name block device : String) (number address count : UInt32) (type : ElementType) :
    Signal where
  name := .cut 32 name
  block := .cut 16 block
  device := .cut 16 device
  number := number
  address := address
  count := count
  type := type

/-- All names of the signal are short. -/
structure IsShort (s : Signal) : Prop where
  name : s.name.IsShort
  block : s.block.IsShort
  device : s.device.IsShort

instance : HasKey Signal := ⟨fun s => s.name.text⟩

/-- The signal lies in the block of this name, device and number. -/
def liesIn (s : Signal) (block device : String) (number : UInt32) : Bool :=
  s.block.text == block && s.device.text == device && s.number == number

/-- The block, device and number agree with the selector where it specifies
them; the name of the signal is compared by who searches. -/
def agrees (s : Signal) (ids : Selector) : Bool :=
  (ids.block.isEmpty || ids.block == s.block)
    && (ids.device.isEmpty || ids.device == s.device)
    && (ids.number == 0 || ids.number == s.number)

/-- Bytes of the signal with its state byte. -/
def extent (s : Signal) : Nat := s.type.extent s.count.toNat

/-- The address after the last byte of the signal. -/
def stop (s : Signal) : Nat := s.address.toNat + s.extent

end Signal
end SignalRegistry
