/-
# Networks

A network has a table of the signals of its devices and a list of shortcuts to
the blocks that feed it. A signal is told from others by its name, block,
device and number: adding one that is there already changes its layout and
nothing else. A block that is deleted takes its signals and shortcuts along.

A network is announced when a device is registered in it, and disconnects with
its last block.

Key definitions: `Network`, `Network.putSignal`, `Network.matching`,
`Network.link`, `Network.forget`.
-/
import SignalRegistry.Remark
import SignalRegistry.Shortcuts

namespace SignalRegistry

/-- Where a network stands between its first device and its last block. -/
inductive Network.Phase where
  /-- Not announced yet. -/
  | new
  /-- Announced, and fed by a block. -/
  | active
  /-- It has lost its last block. -/
  | draining
deriving DecidableEq, Repr

/-- The buckets of a table of signals. -/
abbrev signalBuckets : Nat := 64

instance : Spreads signalBuckets := ⟨by decide⟩

abbrev SignalIndex := Index Signal signalBuckets

/-- The signals and shortcuts of one network, whose name is short. -/
structure Network where
  name : NetworkName
  signals : SignalIndex := .empty
  shortcuts : Shortcuts := .empty
  phase : Network.Phase := .new
  short : name.IsShort := by decide

namespace Network

instance : HasKey Network := ⟨fun n => n.name.text⟩

instance : Inhabited Network := ⟨{ name := .empty }⟩

/-- An empty network. Its name must fit as it is and not be empty. -/
def ofName (name : String) : Except Error Network :=
  let stored : NetworkName := .cut 24 name
  if stored.text ≠ name then .error (.malformed .nameTooLong)
  else if name.isEmpty then .error (.malformed .path)
  else .ok { name := stored, short := Name.isShort_cut name }

/-- A network can have this name: it is not empty and it is short. -/
def Accepts (name : NetworkName) : Prop := name.text ≠ "" ∧ name.IsShort

instance (name : NetworkName) : Decidable (Accepts name) :=
  inferInstanceAs (Decidable (name.text ≠ "" ∧ name.IsShort))

/-- The name is not cut. -/
@[simp] theorem cut_name (n : Network) : Name.cut 24 n.name.text = n.name := Name.cut_text n.short

/-! ### Signals -/

/-- The signal with the same name, block, device and number. -/
def sameSignal? (n : Network) (s : Signal) : Option Handle :=
  n.signals.find? s.name.text fun t => t.liesIn s.block.text s.device.text s.number

/-- Adds a signal, or changes the layout of the one that is there already. -/
def putSignal (n : Network) (s : Signal) : Network × Handle × List Remark :=
  match n.sameSignal? s with
  | some h =>
    let refresh (t : Signal) : Signal :=
      { t with address := s.address, count := s.count, columns := s.columns, type := s.type }
    ({ n with signals := n.signals.modify h refresh }, h, [])
  | none =>
    let (signals, h) := n.signals.insert s
    ({ n with signals := signals }, h, [.signalAdded n.name s])

/-- Removes the signal a handle leads to and returns it. -/
def eraseSignal (n : Network) (h : Handle) : Network × Option Signal :=
  let (signals, s) := n.signals.erase h
  ({ n with signals := signals }, s)

/-- The signal has the name of the selector and agrees with the rest of it. -/
def selects (ids : Selector) (s : Signal) : Bool := s.name == ids.signal && s.agrees ids

/-- The signals a selector matches, in the order of their chain. A selector
that names no signal matches none. -/
def matching (n : Network) (ids : Selector) : List (Handle × Signal) :=
  if ids.signal.isEmpty then []
  else (n.signals.chain ids.signal.text).filter fun entry => selects ids entry.2

/-- The first signal a selector matches. -/
def firstMatch? (n : Network) (ids : Selector) : Option Handle :=
  (n.matching ids).head?.map Prod.fst

/-- The first match after the signal of a handle, in the chain of that
signal. -/
def nextMatch? (n : Network) (h : Handle) (ids : Selector) : Option Handle :=
  ((n.signals.after h).find? fun entry => selects ids entry.2).map Prod.fst

/-! ### Shortcuts -/

/-- Adds a shortcut to a block unless there is one. -/
def link (n : Network) (block : BlockRef) : Network × Handle :=
  match n.shortcuts.handleOf? block.id with
  | some h => (n, h)
  | none =>
    let (shortcuts, h) := n.shortcuts.push block
    ({ n with shortcuts := shortcuts }, h)

/-- Removes a shortcut, which must be there. -/
def unlink (n : Network) (h : Handle) : Network × Except Error Unit :=
  let (shortcuts, found) := n.shortcuts.erase h
  ({ n with shortcuts := shortcuts }, if found then .ok () else .error (.notFound .shortcut))

/-- The living block of this name, device and number that a shortcut leads
to. -/
def lookup (alive : Nat → Bool) (n : Network) (block device : String) (number : UInt32) :
    Network × Option BlockRef :=
  let (shortcuts, found) := n.shortcuts.lookup alive block device number
  ({ n with shortcuts := shortcuts }, found)

/-! ### Teardown -/

/-- How many signals and shortcuts went with a block. -/
structure Removed where
  signals : Nat
  shortcuts : Nat
deriving DecidableEq

/-- Removes the signals of a block and the shortcuts to it, and those to all
blocks that are gone. -/
def forget (alive : Nat → Bool) (n : Network) (block : BlockRef) : Network × Removed × List Remark :=
  let i := block.identity
  let (signals, gone) := n.signals.eraseWhere fun s => s.liesIn i.block.text i.device.text i.number
  let (shortcuts, count) := n.shortcuts.purge alive (some block.id)
  ({ n with signals := signals, shortcuts := shortcuts }, ⟨gone.length, count⟩,
    [.blockDeleted n.name i gone.length count])

/-- Empties both tables. -/
def clear (n : Network) : Network := { n with signals := .empty, shortcuts := .empty }

end Network
end SignalRegistry
