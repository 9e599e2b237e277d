/-
# Configuration of the registry

The configuration is kept as bytes or edited as JSON. However it comes, it is
checked before it is used; the first check that fails gives the reason.

Key definitions: `Config`, `ConfigFault`, `Config.check`.
-/
import SignalRegistry.Event
import SignalRegistry.Event.Queue
import SignalRegistry.Name

namespace SignalRegistry

/-- What can be configured of a registry and its event queue. -/
structure Config where
  /-- The network of a path that ends before its network component. -/
  defaultNetwork : Name 24
  /-- How many events may be pending; 0 asks for the default. -/
  queueDepth : UInt32
  /-- The kinds of event the queue wants. -/
  eventMask : Event.Mask
  /-- A network is removed with its last block. -/
  removeEmptyNetworks : Bool
  /-- Blocks grow to the layout in the `info` block. -/
  resizeBlocks : Bool
deriving DecidableEq

/-- Why a configuration is not to be had. -/
inductive ConfigFault where
  /-- The stored bytes are no configuration. -/
  | corrupted
  /-- A field has a value that is not allowed. -/
  | invalid (reason : String)
  /-- The store cannot be read. -/
  | storage
deriving DecidableEq

def ConfigFault.message : ConfigFault → String
  | .corrupted => "config corrupted"
  | .invalid reason => "validation failed: " ++ reason
  | .storage => "I/O error"

namespace Config

/-- The largest depth of the event queue. -/
def greatestDepth : UInt32 := 100000

/-- What holds where nothing is configured. -/
def default : Config where
  defaultNetwork := .truncate 24 "iocafenet"
  queueDepth := 1000
  eventMask := .default
  removeEmptyNetworks := true
  resizeBlocks := false

instance : Inhabited Config := ⟨default⟩

/-- Checks every field. -/
def check (c : Config) : Except ConfigFault Unit :=
  if c.defaultNetwork.isEmpty then .error (.invalid "default_network_name is empty")
  else if c.defaultNetwork.chars.any fun x => x == '*' || x == ' ' then
    .error (.invalid "default_network_name contains '*' or ' '")
  else if greatestDepth < c.queueDepth then .error (.invalid "event_queue_depth too large")
  else if c.eventMask.bits &&& ~~~Event.Mask.all.bits != 0 then
    .error (.invalid "event_mask has unknown bits")
  else .ok ()

end Config
end SignalRegistry
