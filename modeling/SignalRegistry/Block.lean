/-
# Memory blocks

A device publishes its signals in memory blocks: named runs of bytes. The
block called `info` carries the device's table of signals. A block may grow
but never shrinks, and its identity never changes.

Bytes are read short where the block ends, but written only where the whole
range lies inside. Which sizes a block can grow to is up to the allocator, which
is told from outside as a predicate.

Key definitions: `BlockIdentity`, `Block`, `Block.readBytes`,
`Block.writeBytes`, `Block.growWithin`.
Key theorems: `Block.writeBytes_eq_ok_iff`, `Block.size_le_of_growWithin`.
-/
import SignalRegistry.ElementType
import SignalRegistry.Error
import SignalRegistry.Name
import SignalRegistry.Text.Utf8

namespace SignalRegistry

/-- Which block of which device in which network. Several blocks may claim
the same identity. -/
structure BlockIdentity where
  block : BlockName
  device : BlockName
  number : UInt32
  network : NetworkName
deriving DecidableEq, Inhabited

namespace BlockIdentity

/-- An identity with names cut to size. -/
def ofNames (block device : String) (number : UInt32) (network : String) : BlockIdentity where
  block := .cut 16 block
  device := .cut 16 device
  number := number
  network := .cut 24 network

/-- The block, device and number are these; the network is not compared. -/
def isOf (i : BlockIdentity) (block device : String) (number : UInt32) : Bool :=
  i.block.text == block && i.device.text == device && i.number == number

/-- The block carries a table of signals. -/
def holdsTable (i : BlockIdentity) : Bool := i.block.text == "info"

end BlockIdentity

/-- A run of bytes with its identity. -/
structure Block where
  identity : BlockIdentity
  bytes : Octets
deriving DecidableEq, Inhabited

namespace Block

/-- A block that has to grow has at least this size afterwards. -/
def leastSize : Nat := 32

/-- Runs of bytes are shorter than this. -/
def limit : Nat := Nat.pow 2 63

/-- A block of `size` zeros. -/
def zeros (identity : BlockIdentity) (size : Nat) : Block := ⟨identity, List.replicate size 0⟩

def size (m : Block) : Nat := m.bytes.length

/-- Up to `length` bytes from `address` on. -/
def readBytes (m : Block) (address length : Nat) : Octets := (m.bytes.drop address).take length

/-- The bytes with `data` in place of those from `address` on. -/
def overwrite (bytes : Octets) (address : Nat) (data : Octets) : Octets :=
  bytes.take address ++ data ++ bytes.drop (address + data.length)

/-- Replaces the bytes from `address` on. -/
def writeBytes (m : Block) (address : Nat) (data : Octets) : Except Error Block :=
  if address + data.length ≤ m.size then .ok { m with bytes := overwrite m.bytes address data }
  else .error (.malformed .outOfRange)

/-- Grows the block to `size` bytes, and not below `leastSize`, if the allocator
grants that size. A block that is large enough stays as it is. -/
def growWithin (m : Block) (grants : Nat → Bool) (size : Nat) : Except Error Block :=
  let size := max size leastSize
  if size ≤ m.size then .ok m
  else if size < limit && grants size then
    .ok { m with bytes := m.bytes ++ List.replicate (size - m.size) 0 }
  else .error (.exhausted .blockCapacity)

/-- Grows the block where the allocator grants every size. -/
def grow (m : Block) (size : Nat) : Except Error Block := m.growWithin (fun _ => true) size

theorem length_overwrite {bytes data : Octets} {address : Nat}
    (h : address + data.length ≤ bytes.length) :
    (overwrite bytes address data).length = bytes.length := by
  simp only [overwrite, List.length_append, List.length_take, List.length_drop]
  omega

/-- A write succeeds exactly when its range lies inside the block. -/
theorem writeBytes_eq_ok_iff (m n : Block) (address : Nat) (data : Octets) :
    m.writeBytes address data = .ok n ↔
      address + data.length ≤ m.size ∧ n = { m with bytes := overwrite m.bytes address data } := by
  unfold writeBytes
  split
  · rename_i h
    simp [h, eq_comm]
  · rename_i h
    simp [h]

/-- A block never shrinks, and has the size asked for afterwards. -/
theorem size_le_of_growWithin {m n : Block} {grants : Nat → Bool} {size : Nat}
    (h : m.growWithin grants size = .ok n) : m.size ≤ n.size ∧ size ≤ n.size := by
  unfold growWithin at h
  simp only at h
  split at h
  · obtain rfl : m = n := by simpa using h
    omega
  · split at h
    · obtain rfl := Except.ok.inj h
      simp only [Block.size, List.length_append, List.length_replicate] at *
      omega
    · simp at h

end Block
end SignalRegistry
