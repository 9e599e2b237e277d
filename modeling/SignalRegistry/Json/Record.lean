/-
# Typed readers of JSON trees

A reader turns a tree into a value of a type or finds the first fault. A
record is read from an object, in which keys come in any order and those that
are not known are passed over, or from an array of its fields in order.

Key definitions: `Json.Reader`, `Json.record`, `Json.list`,
`Json.Document.read`.
-/
import SignalRegistry.Json.Tree

namespace SignalRegistry
namespace Json

/-- What makes a value of a type of a tree. -/
abbrev Reader (α : Type) := Tree → Except Fault α

/-- The fault of a tree that is not of the shape expected: a fault inside it,
if looking at it meets one. -/
def Tree.mismatch : Tree → Fault
  | .number (.error fault) => fault
  | .string (.error fault) => fault
  | .broken fault => fault
  | _ => .mismatch

def string : Reader String
  | .string s => s
  | t => .error t.mismatch

def bool : Reader Bool
  | .bool b => .ok b
  | t => .error t.mismatch

/-- An integer within bounds, which are included. -/
def integer (least greatest : Int) : Reader Int := fun t =>
  let within (n : Int) : Except Fault Int :=
    if least ≤ n ∧ n ≤ greatest then .ok n else .error .mismatch
  match t with
  | .number (.ok (.natural n)) => within n
  | .number (.ok (.negative n)) => within (-n)
  | t => .error t.mismatch

/-- A value, or `null` for none. -/
def optional {α : Type} (read : Reader α) : Reader (Option α)
  | .null => .ok none
  | t => some <$> read t

def Ending.check : Ending → Except Fault Unit
  | .closed => .ok ()
  | .cut fault | .dangling fault => .error fault

/-- All items of an array. -/
def list {α : Type} (read : Reader α) : Reader (List α)
  | .array items ending => do
    let values ← items.mapM read
    ending.check
    return values
  | t => .error t.mismatch

/-- A field of a record: its key, whether an object may lack it, whether an
array may end before it, and how its value changes the record. -/
structure Field (σ : Type) where
  key : String
  optional : Bool
  droppable : Bool
  read : Tree → σ → Except Fault σ

/-- A field that holds what a reader finds. -/
def field {σ α : Type} (key : String) (optional droppable : Bool) (read : Reader α)
    (set : α → σ → σ) : Field σ :=
  ⟨key, optional, droppable, fun t r => (set · r) <$> read t⟩

variable {σ : Type}

/-- Reads the members of an object in order. A key may not come twice; the
answer holds the known keys that came. -/
def readMembers (fields : List (Field σ)) : List (Member Tree) → List String → σ →
    Except Fault (List String × σ)
  | [], seen, r => .ok (seen, r)
  | m :: more, seen, r => do
    let key ← m.key
    match fields.find? fun f => f.key == key with
    | some f =>
      if seen.contains key then throw .mismatch
      if let some fault := m.colon then throw fault
      readMembers fields more (key :: seen) (← f.read m.value r)
    | none =>
      if let some fault := m.colon then throw fault
      if let some fault := m.skipped then throw fault
      readMembers fields more seen r

/-- Reads the items of an array as the fields in order. More items than
fields are a fault of form. -/
def readItems : List (Field σ) → List Tree → Ending → σ → Except Fault σ
  | [], [], .closed, r => .ok r
  | [], [], .cut fault, _ => .error fault
  | [], [], .dangling _, _ => .error .illFormed
  | [], _ :: _, _, _ => .error .illFormed
  | f :: fields, t :: items, ending, r => do readItems fields items ending (← f.read t r)
  | fields, [], ending, r => do
    ending.check
    if fields.all Field.droppable then return r else throw .mismatch

/-- A record, starting from the values its fields have when they are absent. -/
def record (fields : List (Field σ)) (start : σ) : Reader σ
  | .object members ending => do
    let (seen, r) ← readMembers fields members [] start
    if let some fault := ending then throw fault
    if fields.all fun f => f.optional || seen.contains f.key then return r else throw .mismatch
  | .array items ending => readItems fields items ending start
  | t => .error t.mismatch

/-- Reads a whole document. -/
def Document.read {α : Type} (read : Reader α) (bytes : Octets) : Except Fault α := do
  let d := Document.parse bytes
  let r ← read d.root
  match d.rest with
  | some fault => .error fault
  | none => .ok r

end Json
end SignalRegistry
