/-
# Remarks for the log

What the registry remarks on while it works, with the level and the text of
each remark.

Key definitions: `Remark`, `Remark.level`, `Remark.text`.
-/
import SignalRegistry.Block
import SignalRegistry.Error
import SignalRegistry.Event
import SignalRegistry.Signal
import SignalRegistry.Text.Digits

namespace SignalRegistry

/-- One thing to remark on, with what its text tells. -/
inductive Remark where
  | networkCreated (network : String)
  | networkRemoved (network : NetworkName)
  | networkKept (network : NetworkName)
  | infoRejected (info : BlockIdentity) (error : Error)
  | signalSkipped (signal : Signal) (size : Nat)
  | signalAdded (network : NetworkName) (signal : Signal)
  | deviceRegistered (info : BlockIdentity) (count : Nat)
  | deviceDisconnected (info : BlockIdentity)
  | blockDeleted (network : NetworkName) (block : BlockIdentity) (signals shortcuts : Nat)
  | queueOverflow (depth : Nat) (event : Event)
  | blockTooSmall (signal : Signal) (size : Nat)
  | unresolved (path : String)
  | released
  | dropped (blocks : Nat)
deriving DecidableEq

/-- How much a remark matters. -/
inductive RemarkLevel where
  | debug
  | info
  | warn
deriving DecidableEq, Repr

def RemarkLevel.name : RemarkLevel → String
  | .debug => "DEBUG"
  | .info => "INFO"
  | .warn => "WARN"

/-- A device name followed by its number, 0 too. -/
def numbered (device : BlockName) (number : UInt32) : String :=
  device.text ++ Digits.ofNat number.toNat

namespace Remark

def level : Remark → RemarkLevel
  | networkCreated _ | networkRemoved _ | deviceRegistered .. | deviceDisconnected _ | released => .info
  | infoRejected .. | signalSkipped .. | queueOverflow .. | dropped _ => .warn
  | networkKept _ | signalAdded .. | blockDeleted .. | blockTooSmall .. | unresolved _ => .debug

/-- A signal with its block and device. -/
def signalPath (s : Signal) : String :=
  s.name.text ++ "." ++ s.block.text ++ "." ++ numbered s.device s.number

/-- The text of a remark, without its level. -/
def text : Remark → String
  | networkCreated network => "network " ++ network ++ " created"
  | networkRemoved network => "network " ++ network.text ++ " removed"
  | networkKept network => "network " ++ network.text ++ " kept with no memory blocks"
  | infoRejected info error =>
    "info block of " ++ numbered info.device info.number ++ "." ++ info.network.text
      ++ " rejected: " ++ error.message
  | signalSkipped signal size =>
    signalPath signal ++ " ends at " ++ Digits.ofNat signal.stop ++ ", past the "
      ++ Digits.ofNat size ++ " byte block; skipped"
  | signalAdded network signal =>
    network.text ++ ": add signal " ++ signalPath signal ++ " @" ++ Digits.ofNat signal.address.toNat
  | deviceRegistered info count =>
    "device " ++ numbered info.device info.number ++ " registered " ++ Digits.ofNat count
      ++ " signals in network " ++ info.network.text
  | deviceDisconnected info =>
    "device " ++ numbered info.device info.number ++ " disconnected from network "
      ++ info.network.text
  | blockDeleted network block signals shortcuts =>
    network.text ++ ": " ++ block.block.text ++ "." ++ numbered block.device block.number
      ++ " deleted, " ++ Digits.ofNat signals ++ " signals " ++ Digits.ofNat shortcuts
      ++ " shortcuts released"
  | queueOverflow depth event =>
    "event queue overflow (" ++ Digits.ofNat depth ++ "), dropped " ++ event.kind.name ++ " "
      ++ event.network.text
  | blockTooSmall signal size =>
    signal.name.text ++ " does not fit in its " ++ Digits.ofNat size ++ " byte block"
  | unresolved path => path ++ " does not resolve"
  | released => "communication root released"
  | dropped blocks =>
    "communication root dropped with " ++ Digits.ofNat blocks ++ " memory blocks"

/-- A line of the log. -/
def line (r : Remark) : String := r.level.name ++ " " ++ r.text

end Remark
end SignalRegistry
