/-
# The registry of networks

All networks of one hub, by name. A network appears when a device's `info`
block is registered, and disappears with its last block or when it is removed.
It is announced once while it is active: `newNetwork` when its first device is
registered, and `networkDisconnected` when its last block goes or it is
removed before that.

Each operation returns the changed registry, its answer and a journal.

Key definitions: `Registry`, `Registry.ensureNetwork`, `Registry.eraseNetwork`,
`Registry.registerDevice`, `Registry.linkBlock`, `Registry.forget`.
-/
import SignalRegistry.Config
import SignalRegistry.Journal
import SignalRegistry.Layout

namespace SignalRegistry

/-- The buckets of the table of networks. -/
abbrev networkBuckets : Nat := 128

instance : Spreads networkBuckets := ⟨by decide⟩

/-- An event of a block, with names cut to size. -/
def Event.ofBlock (kind : Event.Kind) (i : BlockIdentity) : Event :=
  .ofNames kind i.network.text i.device.text i.number i.block.text

/-- The networks and how they are to be kept. -/
structure Registry where
  config : Config
  networks : Index Network networkBuckets := .empty

namespace Registry

def handleOf? (r : Registry) (name : String) : Option Handle :=
  r.networks.find? name fun _ => true

def named? (r : Registry) (name : String) : Option Network :=
  (r.handleOf? name).bind r.networks.get?

def modifyNetwork (r : Registry) (h : Handle) (f : Network → Network) : Registry :=
  { r with networks := r.networks.modify h f }

/-- The notice of an event of a network and a block. The network named in it
is that of the block if there is one. -/
def notice (r : Registry) (kind : Event.Kind) (network : Option Handle)
    (block : Option BlockIdentity) : Entry :=
  let concerned := network.bind r.networks.get?
  let event : Event := match block with
    | some b => .ofBlock kind b
    | none => .ofNames kind ((concerned.map fun n => n.name.text).getD "") "" 0 ""
  .notice event concerned

/-! ### Networks -/

/-- Finds the network of a name, or creates it. -/
def ensureNetwork (r : Registry) (name : String) : Registry × Except Error Handle × Journal :=
  match r.handleOf? name with
  | some h => (r, .ok h, [])
  | none =>
    match Network.ofName name with
    | .error e => (r, .error e, [])
    | .ok n =>
      let (networks, h) := r.networks.insert n
      ({ r with networks := networks }, .ok h, .ofRemark (.networkCreated name))

/-- Removes a network, which is returned empty. An active one disconnects
first. -/
def eraseNetwork (r : Registry) (h : Handle) : Registry × Except Error Network × Journal :=
  match r.networks.get? h with
  | none => (r, .error (.notFound .network), [])
  | some n =>
    let disconnect :=
      if n.phase = .active then [r.notice .networkDisconnected (some h) none] else []
    let (networks, _) := r.networks.erase h
    ({ r with networks := networks }, .ok n.clear,
      disconnect ++ .ofRemark (.networkRemoved n.name))

/-! ### Signals -/

/-- Adds a signal to a network; the answer is whether the network is there. -/
def putSignal (r : Registry) (h : Handle) (s : Signal) : Registry × Bool × Journal :=
  match r.networks.get? h with
  | none => (r, false, [])
  | some n =>
    let (n, _, remarks) := n.putSignal s
    (r.modifyNetwork h fun _ => n, true, .ofRemarks remarks)

/-- The first signal a selector matches, in the network it names. -/
def locate? (r : Registry) (ids : Selector) : Option (Handle × Handle) := do
  let h ← r.handleOf? ids.network.text
  let n ← r.networks.get? h
  let s ← n.firstMatch? ids
  return (h, s)

/-- The signal of two handles, of a network and of a signal in it. -/
def signal? (r : Registry) (network signal : Handle) : Option Signal := do
  (← r.networks.get? network).signals.get? signal

/-- All signals a selector matches, in the network it names. -/
def matching (r : Registry) (ids : Selector) : List Signal :=
  match r.named? ids.network.text with
  | some n => (n.matching ids).map Prod.snd
  | none => []

/-! ### Blocks -/

/-- The signal of a placement in a block of the device of an `info` block, with
names cut to size. -/
def signalOf (info : BlockIdentity) (block : String) (p : Placement) : Signal where
  name := .cut 32 p.name
  block := .cut 16 block
  device := .cut 16 info.device.text
  number := info.number
  address := p.address
  count := p.count
  columns := p.columns
  type := p.type

/-- The signals of a layout in order, and the size of the block they lie in
if that is known. -/
def declared (info : BlockIdentity) (sizeOf : String → Option Nat) (layouts : List Layout) :
    List (Signal × Option Nat) :=
  layouts.flatMap fun l => l.signals.map fun p => (signalOf info l.block p, sizeOf l.block)

/-- The signal ends within the block, as far as its size is known. -/
def fits (s : Signal) : Option Nat → Bool
  | none => true
  | some size => s.stop ≤ size

/-- Adds the signals that fit their blocks; the answer is how many. -/
def putSignals (n : Network) : List (Signal × Option Nat) → Network × Nat × List Remark
  | [] => (n, 0, [])
  | (s, size) :: more =>
    if fits s size then
      let (n, _, remarks) := n.putSignal s
      let (n, count, rest) := putSignals n more
      (n, count + 1, remarks ++ rest)
    else
      let (n, count, rest) := putSignals n more
      (n, count, .signalSkipped s (size.getD 0) :: rest)

/-- The network with the signals of an `info` block, a shortcut to a living
block of that name, and active. -/
def register (alive : Nat → Bool) (n : Network) (info : BlockRef)
    (signals : List (Signal × Option Nat)) : Network × List Remark :=
  let i := info.identity
  let (n, count, remarks) := putSignals n signals
  let (n, found) := n.lookup alive i.block.text i.device.text i.number
  let n := if found.isSome then n else (n.link info).1
  ({ n with phase := .active }, remarks ++ [.deviceRegistered i count])

/-- Registers the signals in the content of an `info` block. The content is
read before anything is changed. `sizeOf` gives the size of the device's block
of a name, if it is known; signals that would run past it are left out. -/
def registerDevice (alive : Nat → Bool) (r : Registry) (info : BlockRef) (content : Octets)
    (sizeOf : String → Option Nat) : Registry × Except Error (List Layout) × Journal :=
  let i := info.identity
  match Layout.parse content with
  | .error why =>
    (r, .error (.malformed why), .ofRemark (.infoRejected i (.malformed why)))
  | .ok layouts =>
    match r.ensureNetwork i.network.text with
    | (r, .error e, created) => (r, .error e, created)
    | (r, .ok h, created) =>
      match r.networks.get? h with
      | none => (r, .error (.invalidState "network vanished during registration"), created)
      | some n =>
        let (registered, remarks) := register alive n info (declared i sizeOf layouts)
        let r := r.modifyNetwork h fun _ => registered
        let announce :=
          if n.phase = .active then [] else [r.notice .newNetwork (some h) none]
        (r, .ok layouts,
          created ++ .ofRemarks remarks ++ announce ++ [r.notice .newDevice (some h) (some i)])

/-- Adds a shortcut to a block to its network, if there is one. -/
def linkBlock (r : Registry) (block : BlockRef) : Registry × Option Handle :=
  match r.handleOf? block.identity.network.text with
  | none => (r, none)
  | some h => (r.modifyNetwork h fun n => (n.link block).1, some h)

/-- Adds a shortcut to a network; the answer is whether the network is there. -/
def linkTo (r : Registry) (h : Handle) (block : BlockRef) : Registry × Bool × Journal :=
  (r.modifyNetwork h fun n => (n.link block).1, (r.networks.get? h).isSome, [])

/-- Ends a network that has lost its last block. It disconnects if it is
active, and is emptied and, if the configuration says so, removed. -/
def drain (r : Registry) (h : Handle) : Registry × Journal :=
  match r.networks.get? h with
  | none => (r, [])
  | some n =>
    let disconnect :=
      if n.phase = .active then [r.notice .networkDisconnected (some h) none] else []
    let r := r.modifyNetwork h fun n => { n.clear with phase := .draining }
    if r.config.removeEmptyNetworks then
      let (r, _, journal) := r.eraseNetwork h
      (r, disconnect ++ journal)
    else (r, disconnect ++ .ofRemark (.networkKept n.name))

/-- Forgets all that comes from a block. A deleted `info` block disconnects its
device. -/
def forget (alive : Nat → Bool) (r : Registry) (block : BlockRef) : Registry × Journal :=
  let i := block.identity
  match r.handleOf? i.network.text with
  | none => (r, [])
  | some h =>
    let device : Journal :=
      if i.holdsTable then
        [.remark (.deviceDisconnected i), r.notice .deviceDisconnected (some h) (some i)]
      else []
    match r.networks.get? h with
    | none => (r, device)
    | some n =>
      let (n, _, remarks) := n.forget alive block
      let r := r.modifyNetwork h fun _ => n
      let journal := device ++ .ofRemarks remarks
      if n.shortcuts.isEmpty then
        let (r, rest) := r.drain h
        (r, journal ++ rest)
      else (r, journal)

/-- Drops all networks without a notice. -/
def clear (r : Registry) : Registry := { r with networks := .empty }

end Registry
end SignalRegistry
