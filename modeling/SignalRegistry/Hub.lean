/-
# The communication hub

Connections report blocks to the hub as they come and go, and applications
resolve paths to signals in them. The hub keeps a registry of networks and the
list of blocks reported to it, in the order of their arrival.

Operations take the memory of all blocks, which they change only where they
say so, and which blocks are alive.

Key definitions: `Hub`, `Hub.arrive`, `Hub.depart`, `Hub.resolve`,
`Hub.resolvePath`, `Binding`.
-/
import SignalRegistry.Memory
import SignalRegistry.Registry

namespace SignalRegistry

/-- The registry, and the blocks held in the order of their arrival. -/
structure Hub where
  registry : Registry
  blocks : List BlockRef := []

/-- A signal resolved to its block, if there is one that holds it. -/
structure Binding where
  network : NetworkName
  signal : Signal
  block : Option BlockRef
deriving DecidableEq

namespace Hub

def ofConfig (config : Config) : Hub := { registry := { config := config } }

def config (hub : Hub) : Config := hub.registry.config

def holds (hub : Hub) (id : Nat) : Bool := hub.blocks.any fun b => b.id == id

/-- The first block of this name, device, number and network. -/
def blockNamed? (hub : Hub) (block device : String) (number : UInt32) (network : String) :
    Option BlockRef :=
  hub.blocks.find? fun b =>
    b.identity.network.text == network && b.identity.isOf block device number

/-! ### Blocks -/

/-- The block of a name of the same device and network. -/
def deviceBlock? (hub : Hub) (info : BlockIdentity) (block : String) : Option BlockRef :=
  hub.blockNamed? block info.device.text info.number info.network.text

/-- Grows the blocks of a device to their layouts, up to the first failure. -/
def growBlocks (hub : Hub) (info : BlockIdentity) : Memory → List Layout → Memory × Except Error Unit
  | memory, [] => (memory, .ok ())
  | memory, l :: more =>
    match hub.deviceBlock? info l.block with
    | none => hub.growBlocks info memory more
    | some b =>
      match memory.grow b.id l.size.toNat with
      | (memory, .ok ()) => hub.growBlocks info memory more
      | (memory, .error e) => (memory, .error e)

/-- A connection has created a block. An `info` block registers the signals of
its device, other blocks get a shortcut in their network. A table that cannot
be read is an error, but its block is kept. A block that is held already is
not added again. -/
def arrive (alive : Nat → Bool) (hub : Hub) (memory : Memory) (block : BlockRef) :
    Hub × Memory × Except Error Unit × Journal :=
  if hub.holds block.id then (hub, memory, .ok (), [])
  else
    let i := block.identity
    let hub := { hub with blocks := hub.blocks ++ [block] }
    let arrival :=
      hub.registry.notice .newMemoryBlock (hub.registry.handleOf? i.network.text) (some i)
    if i.holdsTable then
      let resizes := hub.config.resizeBlocks
      let sizeOf (name : String) : Option Nat :=
        if resizes then none else (hub.deviceBlock? i name).map fun b => memory.size b.id
      let (registry, result, journal) :=
        hub.registry.registerDevice alive block (memory.bytes block.id) sizeOf
      let hub := { hub with registry := registry }
      match result with
      | .error e => (hub, memory, .error e, arrival :: journal)
      | .ok layouts =>
        if resizes then
          let (memory, grown) := hub.growBlocks i memory layouts
          (hub, memory, grown, arrival :: journal)
        else (hub, memory, .ok (), arrival :: journal)
    else
      ({ hub with registry := (hub.registry.linkBlock block).1 }, memory, .ok (), [arrival])

/-- A connection gives a block up, and all that comes from it is forgotten. -/
def depart (alive : Nat → Bool) (hub : Hub) (id : Nat) : Hub × Except Error Unit × Journal :=
  match hub.blocks.find? fun b => b.id == id with
  | none => (hub, .error (.notFound .block), [])
  | some block =>
    let i := block.identity
    let hub := { hub with blocks := hub.blocks.eraseP fun b => b.id == id }
    let departure :=
      hub.registry.notice .memoryBlockDeleted (hub.registry.handleOf? i.network.text) (some i)
    let (registry, journal) := hub.registry.forget alive block
    ({ hub with registry := registry }, .ok (), departure :: journal)

/-! ### Paths -/

/-- The components of a path, with the configured default network. -/
def selector (hub : Hub) (level : Level) (path : String) : Selector :=
  .parse level hub.config.defaultNetwork.text path

/-- The block of a signal: the one a shortcut of its network leads to, or else
the first in the list of blocks, which gets a shortcut for the next time. -/
def blockOf (alive : Nat → Bool) (hub : Hub) (n : Network) (network : String) (s : Signal) :
    Network × Option BlockRef :=
  match n.lookup alive s.block.text s.device.text s.number with
  | (n, some b) => (n, some b)
  | (n, none) =>
    match hub.blockNamed? s.block.text s.device.text s.number network with
    | some b => ((n.link b).1, some b)
    | none => (n, none)

/-- Resolves a selector to its first signal and that signal's block. A block
that is too small for the signal counts as not there. -/
def resolve (alive : Nat → Bool) (hub : Hub) (memory : Memory) (ids : Selector) :
    Hub × Option Binding × Journal :=
  if ids.isEmpty then (hub, none, [])
  else
    match hub.registry.locate? ids with
    | none => (hub, none, [])
    | some (h, sh) =>
      match hub.registry.networks.get? h, hub.registry.signal? h sh with
      | some n, some s =>
        let (n, found) := hub.blockOf alive n ids.network.text s
        let hub := { hub with registry := hub.registry.modifyNetwork h fun _ => n }
        let name : NetworkName := .cut 24 n.name.text
        match found with
        | none => (hub, some ⟨name, s, none⟩, [])
        | some b =>
          let size := memory.size b.id
          if s.stop ≤ size then (hub, some ⟨name, s, some b⟩, [])
          else (hub, some ⟨name, s, none⟩, .ofRemark (.blockTooSmall s size))
      | _, _ => (hub, none, [])

/-- A network name without its first label, or the whole if it has one only. -/
def domainOf (network : String) : String :=
  match (component network.toList).2 with
  | some rest => String.ofList rest
  | none => network

/-- Resolves a path. A caller who names its own network is confined to the
networks of the same top level: a path to another one is taken to mean its
own. -/
def resolvePath (alive : Nat → Bool) (hub : Hub) (memory : Memory) (path : String)
    (own : Option String) : Hub × Option Binding × Journal :=
  let ids := hub.selector .signal path
  let ids := match own with
    | some own =>
      if !own.isEmpty && domainOf own != domainOf ids.network.text then
        { ids with network := .cut 24 own }
      else ids
    | none => ids
  match hub.resolve alive memory ids with
  | (hub, some b, journal) => (hub, some b, journal)
  | (hub, none, journal) => (hub, none, journal ++ .ofRemark (.unresolved path))

/-- All signals a path matches. -/
def matching (hub : Hub) (path : String) : List Signal :=
  hub.registry.matching (hub.selector .signal path)

end Hub

namespace Binding

/-- The block is there and still alive. -/
def isLive (alive : Nat → Bool) (b : Binding) : Bool :=
  match b.block with
  | some block => alive block.id
  | none => false

/-- The state and value of the signal, or nothing once its block is gone. -/
def read (alive : Nat → Bool) (memory : Memory) (b : Binding) : Reading :=
  match b.block with
  | none => .none
  | some ref =>
    match memory.block? ref.id with
    | none => .none
    | some m =>
      if alive ref.id then
        m.readSignal b.signal.address.toNat b.signal.count.toNat b.signal.type
      else .none

/-- Stores a value and state in the signal. -/
def write (alive : Nat → Bool) (memory : Memory) (b : Binding) (value : Value) (state : UInt8) :
    Memory × Except Error Unit :=
  match b.block with
  | none => (memory, .error (.notFound .block))
  | some ref =>
    if alive ref.id then
      memory.change ref.id fun m =>
        m.writeSignal b.signal.address.toNat b.signal.count.toNat b.signal.type value state
    else (memory, .error (.notFound .block))

end Binding

namespace Hub

/-- The value of the signal at a path. -/
def getPath (alive : Nat → Bool) (hub : Hub) (memory : Memory) (path : String) :
    Hub × Value × Journal :=
  match hub.resolvePath alive memory path none with
  | (hub, some b, journal) => (hub, (b.read alive memory).value, journal)
  | (hub, none, journal) => (hub, .unavailable, journal)

/-- The state of a signal whose block is connected. -/
def connectedState : UInt8 := 1

/-- Stores a value in the signal at a path. -/
def setPath (alive : Nat → Bool) (hub : Hub) (memory : Memory) (path : String) (value : Value) :
    Hub × Memory × Except Error Unit × Journal :=
  match hub.resolvePath alive memory path none with
  | (hub, some b, journal) =>
    let (memory, result) := b.write alive memory value connectedState
    (hub, memory, result, journal)
  | (hub, none, journal) => (hub, memory, .error (.notFound .signal), journal)

/-- Forgets all networks and blocks. -/
def shutDown (hub : Hub) : Hub × Journal :=
  ({ registry := hub.registry.clear, blocks := [] }, .ofRemark .released)

end Hub
end SignalRegistry
