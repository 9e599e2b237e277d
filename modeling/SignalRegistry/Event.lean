/-
# Events

Events tell of blocks, networks and devices that come and go. A mask of five
bits says which kinds of event are wanted.

Key definitions: `Event.Kind`, `Event.Mask`, `Event`.
Key theorems: `Event.Mask.all_wants`.
-/
import SignalRegistry.Name

namespace SignalRegistry

/-- What came, went or was connected. -/
inductive Event.Kind where
  | newMemoryBlock
  | blockConnectedAsSource
  | blockConnectedAsTarget
  | memoryBlockDeleted
  | newNetwork
  | networkDisconnected
  | newDevice
  | deviceDisconnected
deriving DecidableEq, Repr

/-- A set of kinds of event, as bits. -/
structure Event.Mask where
  bits : UInt8
deriving DecidableEq, Inhabited, Repr

namespace Event.Mask

/-- New blocks. -/
def newBlock : Event.Mask := ⟨0x01⟩
/-- Devices that come and go. -/
def device : Event.Mask := ⟨0x02⟩
/-- Networks that come and go. -/
def network : Event.Mask := ⟨0x04⟩
/-- Blocks that are connected. -/
def blockConnect : Event.Mask := ⟨0x08⟩
/-- All events of blocks, deletions among them. -/
def allBlocks : Event.Mask := ⟨0x10⟩
def all : Event.Mask := ⟨0x1F⟩

/-- The kinds of either mask. -/
def union (a b : Event.Mask) : Event.Mask := ⟨a.bits ||| b.bits⟩

instance : OrOp Event.Mask := ⟨union⟩

/-- Networks and devices. -/
def default : Event.Mask := network ||| device

/-- The masks have a bit in common. -/
def meets (a b : Event.Mask) : Bool := a.bits &&& b.bits != 0

end Event.Mask

/-- The bits of which any lets a kind through. -/
def Event.Kind.wantedBy : Event.Kind → Event.Mask
  | .newMemoryBlock => .newBlock ||| .allBlocks
  | .blockConnectedAsSource | .blockConnectedAsTarget => .blockConnect ||| .allBlocks
  | .memoryBlockDeleted => .allBlocks
  | .newNetwork | .networkDisconnected => .network
  | .newDevice | .deviceDisconnected => .device

def Event.Kind.name : Event.Kind → String
  | .newMemoryBlock => "NewMemoryBlock"
  | .blockConnectedAsSource => "MblkConnectedAsSource"
  | .blockConnectedAsTarget => "MblkConnectedAsTarget"
  | .memoryBlockDeleted => "MemoryBlockDeleted"
  | .newNetwork => "NewNetwork"
  | .networkDisconnected => "NetworkDisconnected"
  | .newDevice => "NewDevice"
  | .deviceDisconnected => "DeviceDisconnected"

namespace Event.Mask

/-- The mask lets the kind through. -/
def wants (mask : Event.Mask) (kind : Event.Kind) : Bool := mask.meets kind.wantedBy

/-- The full mask lets every kind through. -/
theorem all_wants (kind : Event.Kind) : all.wants kind = true := by cases kind <;> rfl

end Event.Mask

/-- Something that happened to a network, a device or a block; what it does
not concern is empty. -/
structure Event where
  kind : Event.Kind
  network : NetworkName
  device : BlockName := .empty
  number : UInt32 := 0
  block : BlockName := .empty
deriving DecidableEq

/-- An event with names cut to size. -/
def Event.ofNames (kind : Event.Kind) (network device : String) (number : UInt32) (block : String) :
    Event where
  kind := kind
  network := .cut 24 network
  device := .cut 16 device
  number := number
  block := .cut 16 block

/-- An event of a network alone. -/
theorem Event.ofNames_network (kind : Event.Kind) (network : String) :
    Event.ofNames kind network "" 0 "" = { kind := kind, network := .cut 24 network } := by
  simp [Event.ofNames]

end SignalRegistry
