/-
# JSON documents with their faults in place

A document becomes a tree even if it has faults: a fault stands in the tree
where a reader of the stream would meet it. Who reads the tree from left to
right meets the faults in the order of the stream, so that the first one
decides, and who passes over a value only meets those that passing over it
meets.

Key definitions: `Json.Tree`, `Json.Document.parse`.
-/
import SignalRegistry.Json.Lexeme

namespace SignalRegistry
namespace Json

/-- How a list ends. -/
inductive Ending where
  | closed
  /-- A fault where a comma or the closing bracket is expected. -/
  | cut (fault : Fault)
  /-- A fault after a comma, where an item is expected. -/
  | dangling (fault : Fault)
deriving DecidableEq

/-- A member of an object: its key, the fault before its value if there is
one, its value, and the fault met by who passes over the value. -/
structure Member (α : Type) where
  key : Except Fault String
  colon : Option Fault
  value : α
  skipped : Option Fault

/-- A value of a document; a fault stands where it is met. -/
inductive Tree where
  | null
  | bool (b : Bool)
  | number (n : Except Fault Number)
  | string (s : Except Fault String)
  | array (items : List Tree) (ending : Ending)
  | object (members : List (Member Tree)) (ending : Option Fault)
  /-- There is a fault in place of a value. -/
  | broken (fault : Fault)

/-- The fault of a result. -/
def fault? {α : Type} : Except Fault α → Option Fault
  | .ok _ => none
  | .error fault => some fault

/-- The bytes after a word. -/
def takeWord : List Char → Octets → Except Fault Octets
  | [], bytes => .ok bytes
  | _ :: _, [] => .error .ended
  | c :: cs, b :: bytes => if b = byte c then takeWord cs bytes else .error .illFormed

/-- The tree of a word, of which the first letter is taken. -/
def word (letters : List Char) (tree : Tree) (bytes : Octets) : Tree × Except Fault Octets :=
  match takeWord letters bytes with
  | .ok rest => (tree, .ok rest)
  | .error fault => (.broken fault, .error fault)

mutual

/-- The value at the start of the bytes, and the bytes after it. Every call
consumes a byte or follows one that did, so `fuel` never runs out. -/
def value : Nat → Octets → Tree × Except Fault Octets
  | 0, _ => (.broken .illFormed, .error .illFormed)
  | fuel + 1, bytes =>
    match skipBlank bytes with
    | [] => (.broken .ended, .error .ended)
    | b :: rest =>
      if b = byte '[' then
        let (items, ending, after) := items fuel true rest
        (.array items ending, after)
      else if b = byte '\x7b' then
        let (members, ending, after) := members fuel true rest
        (.object members ending, after)
      else if b = byte '"' then
        let (s, after) := scanString rest
        (.string s, after)
      else if b = byte '-' ∨ isDigit b then
        let (n, after) := scanNumber (b :: rest)
        (.number n, after)
      else if b = byte 'n' then word "ull".toList .null rest
      else if b = byte 't' then word "rue".toList (.bool true) rest
      else if b = byte 'f' then word "alse".toList (.bool false) rest
      else (.broken .illFormed, .error .illFormed)

/-- The items of an array from the first, or from the comma after one, on. -/
def items : Nat → Bool → Octets → List Tree × Ending × Except Fault Octets
  | 0, _, _ => ([], .cut .illFormed, .error .illFormed)
  | fuel + 1, first, bytes =>
    let item (bytes : Octets) :=
      let (tree, after) := value fuel bytes
      match after with
      | .error fault => ([tree], .cut fault, .error fault)
      | .ok after =>
        let (more, ending, after) := items fuel false after
        (tree :: more, ending, after)
    match skipBlank bytes with
    | [] => ([], .cut .ended, .error .ended)
    | b :: rest =>
      if b = byte ']' then ([], .closed, .ok rest)
      else if first then item bytes
      else if b = byte ',' then
        match skipBlank rest with
        | [] => ([], .dangling .ended, .error .ended)
        | b :: _ =>
          if b = byte ']' then ([], .dangling .illFormed, .error .illFormed) else item rest
      else ([], .cut .illFormed, .error .illFormed)

/-- The members of an object from the first, or from the comma after one, on. -/
def members : Nat → Bool → Octets → List (Member Tree) × Option Fault × Except Fault Octets
  | 0, _, _ => ([], some .illFormed, .error .illFormed)
  | fuel + 1, first, bytes =>
    let stop (fault : Fault) : List (Member Tree) × Option Fault × Except Fault Octets :=
      ([], some fault, .error fault)
    let member (bytes : Octets) : List (Member Tree) × Option Fault × Except Fault Octets :=
      let (key, after) := scanString bytes
      let cut (fault : Fault) : List (Member Tree) × Option Fault × Except Fault Octets :=
        ([⟨key, some fault, .broken fault, some fault⟩], some fault, .error fault)
      match after with
      | .error fault => cut fault
      | .ok after =>
        match skipBlank after with
        | [] => cut .ended
        | b :: rest =>
          if b = byte ':' then
            let (tree, after) := value fuel rest
            match after with
            | .error fault => ([⟨key, none, tree, some fault⟩], some fault, .error fault)
            | .ok after =>
              let (more, ending, after) := members fuel false after
              (⟨key, none, tree, none⟩ :: more, ending, after)
          else cut .illFormed
    match skipBlank bytes with
    | [] => stop .ended
    | b :: rest =>
      if b = byte '\x7d' then ([], none, .ok rest)
      else if first then if b = byte '"' then member rest else stop .illFormed
      else if b = byte ',' then
        match skipBlank rest with
        | [] => stop .ended
        | b :: rest => if b = byte '"' then member rest else stop .illFormed
      else stop .illFormed

end

/-- A value, and the fault in what follows it, where only blanks may be. -/
structure Document where
  root : Tree
  rest : Option Fault

/-- Every document has a tree, whatever its faults. -/
def Document.parse (bytes : Octets) : Document :=
  let (root, after) := value (2 * bytes.length + 2) bytes
  match after with
  | .error fault => ⟨root, some fault⟩
  | .ok after => ⟨root, if (skipBlank after).isEmpty then none else some .illFormed⟩

end Json
end SignalRegistry
