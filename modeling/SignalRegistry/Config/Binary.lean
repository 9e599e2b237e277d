/-
# The stored form of the configuration

The fields in order: the name as a length and UTF-8 bytes, the depth as a
number of 32 bits, the mask as a byte, and each switch as a byte 0 or 1.
Bytes after them do not count.

Key definitions: `Config.encode`, `Config.decode`.
-/
import SignalRegistry.Config
import SignalRegistry.Config.Varint

namespace SignalRegistry
namespace Config

/-- The bytes that store a configuration. -/
def encode (c : Config) : Octets :=
  let name := Utf8.encode c.defaultNetwork.chars
  Varint.encode name.length ++ name ++ Varint.encode c.queueDepth.toNat
    ++ [c.eventMask.bits, c.removeEmptyNetworks.toUInt8, c.resizeBlocks.toUInt8]

/-- A switch, and the bytes after it. -/
def takeSwitch : Octets → Option (Bool × Octets)
  | 0 :: rest => some (false, rest)
  | 1 :: rest => some (true, rest)
  | _ => none

/-- A name, and the bytes after it. Its length is a number of 64 bits. -/
def takeName (bytes : Octets) : Option (Name 24 × Octets) := do
  let (length, bytes) ← Varint.decode 1 10 bytes
  if bytes.length < length then none
  let cs ← Utf8.decode? (bytes.take length)
  let name := Name.ofChars 24 cs
  if name.chars = cs then some (name, bytes.drop length) else none

/-- The fields, unchecked. -/
def fields? (bytes : Octets) : Option Config := do
  let (name, bytes) ← takeName bytes
  let (depth, bytes) ← Varint.decode 0x0F 5 bytes
  match bytes with
  | mask :: bytes =>
    let (removeEmpty, bytes) ← takeSwitch bytes
    let (resize, _) ← takeSwitch bytes
    return ⟨name, .ofNat depth, ⟨mask⟩, removeEmpty, resize⟩
  | [] => none

/-- The configuration that the bytes store, if it is valid. -/
def decode (bytes : Octets) : Except ConfigFault Config :=
  match fields? bytes with
  | none => .error .corrupted
  | some c => do
    c.check
    return c

/-- What a store gives is checked before it is used. -/
def load (stored : Except ConfigFault Config) : Except ConfigFault Config := do
  let c ← stored
  c.check
  return c

end Config
end SignalRegistry
