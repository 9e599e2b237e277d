/-
# Errors of the registry

Every operation that can fail says why with an `Error`; `Error.message` is
its text.

Key definitions: `Error`, `Error.message`, `Error.isMissing`.
-/

namespace SignalRegistry

/-- What a search did not find. -/
inductive Missing where
  | signal
  | network
  | shortcut
  | block
deriving DecidableEq, Repr

/-- What is wrong with a path, a name or a table of signals. -/
inductive Defect where
  /-- A mandatory component of a path is empty. -/
  | path
  /-- The table of signals is no JSON document. -/
  | infoSyntax
  /-- The table of signals is a JSON document of another shape. -/
  | infoStructure
  /-- No element type has this name. -/
  | unknownType
  /-- A signal would run past the end of its block. -/
  | outOfRange
  /-- A name has more bytes than its kind allows. -/
  | nameTooLong
deriving DecidableEq, Repr

/-- What there was no room for. -/
inductive Shortage where
  | queueFull
  | blockCapacity
deriving DecidableEq, Repr

/-- Why an operation failed. -/
inductive Error where
  | notFound (what : Missing)
  | malformed (why : Defect)
  | exhausted (what : Shortage)
  | invalidState (reason : String)
deriving DecidableEq, Repr

def Missing.message : Missing → String
  | .signal => "signal"
  | .network => "network"
  | .shortcut => "memory block shortcut"
  | .block => "memory block"

def Defect.message : Defect → String
  | .path => "IO path"
  | .infoSyntax => "info block is not valid JSON"
  | .infoStructure => "unexpected info block structure"
  | .unknownType => "unknown signal type"
  | .outOfRange => "signal outside memory block"
  | .nameTooLong => "name too long"

def Shortage.message : Shortage → String
  | .queueFull => "event queue full"
  | .blockCapacity => "memory block capacity"

namespace Error

def message : Error → String
  | .notFound what => "not found: " ++ what.message
  | .malformed why => "malformed: " ++ why.message
  | .exhausted what => "resource exhausted: " ++ what.message
  | .invalidState reason => "invalid state: " ++ reason

/-- A search failed, which is no fault of its caller. -/
def isMissing : Error → Bool
  | .notFound _ => true
  | _ => false

end Error
end SignalRegistry
