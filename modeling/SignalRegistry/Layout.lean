/-
# The layout of a device's signals

The `info` block of a device carries a JSON table of its signals, by block and
group, padded with zero bytes. Addresses are given out by a cursor per block:

- a block starts at address 0 with element type `ushort`;
- a group called `inputs` or `outputs` makes the type `boolean`;
- the type of a signal is that of the signals after it too;
- an address that is given moves the cursor, unless it is negative;
- a signal moves the cursor past its extent, whether it is named or not.

Blocks without a name are left out. Addresses, counts and ends must be below
2^32.

Key definitions: `SignalTable.read`, `Layout.ofGroups`, `Layout.parse`.
-/
import SignalRegistry.ElementType
import SignalRegistry.Error
import SignalRegistry.Json.Record

namespace SignalRegistry

/-- A signal as the table declares it. -/
structure Declaration where
  name : Option String := none
  type : Option String := none
  address : Option Int := none
  array : Option Int := none
  columns : Option Int := none

/-- A group of signals as the table lists them. -/
structure SignalGroup where
  name : Option String := none
  signals : List Declaration := []

/-- The groups of one block. -/
structure BlockTable where
  name : Option String := none
  groups : List SignalGroup := []

/-- The table of a device, block by block. -/
structure SignalTable where
  blocks : List BlockTable := []

namespace SignalTable

open Json (field optional list record)

/-- An integer of 64 bits. -/
def integer : Json.Reader Int := Json.integer Int64.minValue.toInt Int64.maxValue.toInt

def readDeclaration : Json.Reader Declaration :=
  record
    [field "name" true false (optional Json.string) fun v d => { d with name := v },
     field "type" true false (optional Json.string) fun v d => { d with type := v },
     field "addr" true false (optional integer) fun v d => { d with address := v },
     field "array" true false (optional integer) fun v d => { d with array := v },
     field "ncolumns" true false (optional integer) fun v d => { d with columns := v }]
    {}

def readGroup : Json.Reader SignalGroup :=
  record
    [field "name" true false (optional Json.string) fun v g => { g with name := v },
     field "signals" true true (list readDeclaration) fun v g => { g with signals := v }]
    {}

def readBlock : Json.Reader BlockTable :=
  record
    [field "name" true false (optional Json.string) fun v b => { b with name := v },
     field "groups" true true (list readGroup) fun v b => { b with groups := v }]
    {}

def readTable : Json.Reader SignalTable :=
  record [field "mblk" true true (list readBlock) fun v t => { t with blocks := v }] {}

/-- The table in the content of a block, without the zeros at its end. -/
def read (content : Octets) : Except Defect SignalTable :=
  let text := (content.reverse.dropWhile (· == 0)).reverse
  match Json.Document.read readTable text with
  | .ok table => .ok table
  | .error .mismatch => .error .infoStructure
  | .error _ => .error .infoSyntax

end SignalTable

/-- A signal with its place in a block. -/
structure Placement where
  name : String
  address : UInt32
  count : UInt32
  columns : UInt32
  type : ElementType
deriving DecidableEq

/-- The signals of a block in order, and the end of the one that ends last. -/
structure Layout where
  block : String
  signals : List Placement
  size : UInt32
deriving DecidableEq

/-- How far the layout of a block has come. -/
structure LayoutCursor where
  next : Nat := 0
  size : Nat := 0
  type : ElementType := .ushort
  signals : List Placement := []

namespace Layout

/-- The largest address, count and end. -/
def limit : Nat := UInt32.size - 1

/-- A count as declared; none, or less than one, counts as one. -/
def count (declared : Option Int) : Except Defect Nat :=
  let n := (declared.getD 1).toNat
  if limit < n then .error .outOfRange else .ok (max n 1)

/-- The type of a signal: the one declared, or that of the signals before. -/
def elementType (current : ElementType) (declared : Option String) : Except Defect ElementType :=
  match declared with
  | none => .ok current
  | some name =>
    match ElementType.ofName? name with
    | some type => .ok type
    | none => .error .unknownType

/-- The address of a signal: the one declared, unless negative, or the cursor. -/
def address (next : Nat) (declared : Option Int) : Except Defect Nat :=
  match declared with
  | some (.ofNat n) => if limit < n then .error .outOfRange else .ok n
  | _ => .ok next

/-- Lays out one signal. -/
def place (c : LayoutCursor) (d : Declaration) : Except Defect LayoutCursor := do
  let type ← elementType c.type d.type
  let start ← address c.next d.address
  let n ← count d.array
  let columns ← count d.columns
  let stop := start + type.extent n
  if limit < stop then throw .outOfRange
  let placed := d.name.map fun name =>
    { name := name, address := .ofNat start, count := .ofNat n, columns := .ofNat columns,
      type := type : Placement }
  return { next := stop, size := max c.size stop, type := type, signals := c.signals ++ placed.toList }

/-- The cursor at the start of a group. -/
def enter (c : LayoutCursor) (group : Option String) : LayoutCursor :=
  if group = some "inputs" ∨ group = some "outputs" then { c with type := .boolean } else c

/-- Lays out the signals of the groups of a block. -/
def ofGroups (block : String) (groups : List SignalGroup) : Except Defect Layout := do
  let c ← groups.foldlM (fun c g => g.signals.foldlM place (enter c g.name)) {}
  return { block := block, signals := c.signals, size := .ofNat c.size }

/-- Lays out the blocks of a table that have a name. -/
def ofTable (table : SignalTable) : Except Defect (List Layout) :=
  table.blocks.filterMapM fun b =>
    match b.name with
    | some name => some <$> ofGroups name b.groups
    | none => return none

/-- The layouts in the content of an `info` block. -/
def parse (content : Octets) : Except Defect (List Layout) := SignalTable.read content >>= ofTable

end Layout
end SignalRegistry
