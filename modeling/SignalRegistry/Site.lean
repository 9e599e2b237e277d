/-
# A hub at its site

A site is a hub with what is around it: the memory of all blocks, the blocks
that connections hold, the event queues that were made, and the listener. A
block is alive while a connection or the hub holds it.

What the hub writes to its journal is delivered in order: an event goes to the
listener first and then to the queue in use. A queue that is full loses the
event, which is remarked and has no other effect.

Key definitions: `Site`, `Site.isAlive`, `Site.deliver`, `Delivery`.
Key theorems: `Site.hub_deliver`, `Site.memory_deliver`.
-/
import SignalRegistry.Event.Queue
import SignalRegistry.Hub

namespace SignalRegistry

/-- Something delivered: a line of the log, or an event to the listener with
the network it concerns. -/
inductive Delivery where
  | logged (r : Remark)
  | heard (event : Event) (network : Option Network)

/-- The state of a hub and of all it works with. -/
structure Site where
  hub : Hub
  memory : Memory := {}
  /-- The blocks that connections hold. -/
  held : List Nat := []
  /-- All event queues made, which stay usable when they are replaced. -/
  queues : Array Event.Queue := #[]
  /-- The queue in use. -/
  current : Option Nat := none
  listening : Bool := false

namespace Site

def ofConfig (config : Config) : Site := { hub := .ofConfig config }

/-- A connection or the hub holds the block. -/
def isAlive (s : Site) (id : Nat) : Bool := s.held.contains id || s.hub.holds id

/-! ### Delivery -/

/-- Puts an event into a queue. One that is refused is remarked on. -/
def push (s : Site) (i : Nat) (e : Event) : Site × Except Error Unit × List Delivery :=
  match s.queues[i]? with
  | none => (s, .ok (), [])
  | some q =>
    let (changed, pushed) := q.push e
    ({ s with queues := s.queues.setIfInBounds i changed }, pushed.result,
      match pushed.result with
      | .ok () => []
      | .error _ => [.logged (.queueOverflow q.depth e)])

/-- Puts an event into the queue in use. -/
def enqueue (s : Site) (e : Event) : Site × List Delivery :=
  match s.current with
  | none => (s, [])
  | some i =>
    let (s, _, out) := s.push i e
    (s, out)

/-- Delivers one entry. -/
def deliverEntry (s : Site) : Entry → Site × List Delivery
  | .remark r => (s, [.logged r])
  | .notice e n =>
    let heard := if s.listening then [.heard e n] else []
    let (s, logged) := s.enqueue e
    (s, heard ++ logged)

/-- Delivers the entries of a journal in order. -/
def deliver (s : Site) : Journal → Site × List Delivery
  | [] => (s, [])
  | e :: rest =>
    let (s, first) := s.deliverEntry e
    let (s, others) := s.deliver rest
    (s, first ++ others)

theorem push_eq (s : Site) (i : Nat) (e : Event) :
    ∃ qs, (s.push i e).1 = { s with queues := qs } := by
  unfold push
  split
  · exact ⟨s.queues, rfl⟩
  · exact ⟨_, rfl⟩

/-- Delivery of an event changes nothing but the queues. -/
theorem enqueue_eq (s : Site) (e : Event) : ∃ qs, (s.enqueue e).1 = { s with queues := qs } := by
  unfold enqueue
  split
  · exact ⟨s.queues, rfl⟩
  · exact s.push_eq _ e

/-- Delivery changes nothing but the queues. -/
theorem deliver_eq : ∀ (j : Journal) (s : Site), ∃ qs, (s.deliver j).1 = { s with queues := qs }
  | [], s => ⟨s.queues, rfl⟩
  | .remark r :: rest, s => deliver_eq rest s
  | .notice e n :: rest, s => by
    obtain ⟨qs, hq⟩ := s.enqueue_eq e
    obtain ⟨qs', hq'⟩ := deliver_eq rest (s.enqueue e).1
    refine ⟨qs', ?_⟩
    have : (s.deliver (.notice e n :: rest)).1 = ((s.enqueue e).1.deliver rest).1 := rfl
    rw [this, hq', hq]

theorem hub_deliver (s : Site) (j : Journal) : (s.deliver j).1.hub = s.hub := by
  obtain ⟨_, h⟩ := deliver_eq j s
  rw [h]

theorem memory_deliver (s : Site) (j : Journal) : (s.deliver j).1.memory = s.memory := by
  obtain ⟨_, h⟩ := deliver_eq j s
  rw [h]

/-! ### Connections -/

/-- A connection creates a block and holds it. -/
def publish (s : Site) (block : Block) : Site × BlockRef :=
  let (memory, ref) := s.memory.publish block
  ({ s with memory := memory, held := ref.id :: s.held }, ref)

/-- A connection lets go of a block. -/
def letGo (s : Site) (id : Nat) : Site := { s with held := s.held.erase id }

/-- A connection reports a block to the hub. -/
def arrive (s : Site) (id : Nat) : Site × Except Error Unit × List Delivery :=
  match s.memory.ref? id with
  | none => (s, .error (.notFound .block), [])
  | some ref =>
    let alive := fun k => s.isAlive k || k == id
    let (hub, memory, result, journal) := s.hub.arrive alive s.memory ref
    let (s, out) := { s with hub := hub, memory := memory }.deliver journal
    (s, result, out)

/-- A connection takes a block away from the hub. -/
def depart (s : Site) (id : Nat) : Site × Except Error Unit × List Delivery :=
  let (hub, result, journal) := s.hub.depart s.isAlive id
  let (s, out) := { s with hub := hub }.deliver journal
  (s, result, out)

/-! ### Applications -/

/-- Resolves a selector. -/
def resolve (s : Site) (ids : Selector) : Site × Option Binding × List Delivery :=
  let (hub, b, journal) := s.hub.resolve s.isAlive s.memory ids
  let (s, out) := { s with hub := hub }.deliver journal
  (s, b, out)

/-- Resolves a path, for a caller in its own network if it names one. -/
def resolvePath (s : Site) (path : String) (own : Option String) :
    Site × Option Binding × List Delivery :=
  let (hub, b, journal) := s.hub.resolvePath s.isAlive s.memory path own
  let (s, out) := { s with hub := hub }.deliver journal
  (s, b, out)

/-- The value of the signal at a path. -/
def getPath (s : Site) (path : String) : Site × Value × List Delivery :=
  let (hub, v, journal) := s.hub.getPath s.isAlive s.memory path
  let (s, out) := { s with hub := hub }.deliver journal
  (s, v, out)

/-- Stores a value in the signal at a path. -/
def setPath (s : Site) (path : String) (value : Value) : Site × Except Error Unit × List Delivery :=
  let (hub, memory, result, journal) := s.hub.setPath s.isAlive s.memory path value
  let (s, out) := { s with hub := hub, memory := memory }.deliver journal
  (s, result, out)

def isLive (s : Site) (b : Binding) : Bool := b.isLive s.isAlive

/-- Reads through a binding. -/
def read (s : Site) (b : Binding) : Reading := b.read s.isAlive s.memory

/-- Writes through a binding. -/
def write (s : Site) (b : Binding) (value : Value) (state : UInt8) : Site × Except Error Unit :=
  let (memory, result) := b.write s.isAlive s.memory value state
  ({ s with memory := memory }, result)

/-- Changes the bytes of a block. -/
def changeBlock (s : Site) (id : Nat) (f : Block → Except Error Block) :
    Site × Except Error Unit :=
  let (memory, result) := s.memory.change id f
  ({ s with memory := memory }, result)

/-- The allocator grants other sizes from now on. -/
def allot (s : Site) (grants : Nat → Nat → Bool) : Site :=
  { s with memory := { s.memory with grants := grants } }

/-! ### Networks -/

/-- Lets the registry do something on which it keeps a journal. -/
def onRegistry {α : Type} (s : Site) (f : Registry → Registry × α × Journal) :
    Site × α × List Delivery :=
  let (registry, answer, journal) := f s.hub.registry
  let (s, out) := { s with hub := { s.hub with registry := registry } }.deliver journal
  (s, answer, out)

/-! ### Events -/

/-- The queue in use. -/
def currentQueue (s : Site) : Option Event.Queue := s.current.bind fun i => s.queues[i]?

def changeQueue (s : Site) (i : Nat) (f : Event.Queue → Event.Queue) : Site :=
  { s with queues := s.queues.modify i f }

/-- Empties the queue in use. -/
def clearQueue (s : Site) : Site :=
  match s.current with
  | some i => s.changeQueue i Event.Queue.clear
  | none => s

/-- Makes a queue and uses it from now on; the one in use is emptied. Depth 0
asks for the configured depth. -/
def openQueue (s : Site) (depth : Nat) (mask : Event.Mask) : Site :=
  let depth := if depth = 0 then s.hub.config.queueDepth.toNat else depth
  let s := s.clearQueue
  { s with queues := s.queues.push (.ofDepth depth mask), current := some s.queues.size }

/-- Makes a queue as configured and uses it from now on. -/
def openConfiguredQueue (s : Site) : Site := s.openQueue 0 s.hub.config.eventMask

/-- Empties the queue in use and uses none from now on. -/
def closeQueue (s : Site) : Site := { s.clearQueue with current := none }

/-! ### The end -/

/-- Releases all networks, blocks, pending events, the queue and the
listener. -/
def shutDown (s : Site) : Site × List Delivery :=
  let (hub, journal) := s.hub.shutDown
  { s.closeQueue with hub := hub, listening := false }.deliver journal

/-- What is remarked when the hub is dropped: blocks it still holds. -/
def drop (s : Site) : List Delivery :=
  if s.hub.blocks.isEmpty then [] else [.logged (.dropped s.hub.blocks.length)]

end Site
end SignalRegistry
