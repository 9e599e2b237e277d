/-
# Signal paths

A path names a signal, a block, a device or a network, the most specific
component first: `dip_switch_3.exp.gina1.cafenet`. Its level says with which
component it starts. Components are separated by dots; the network is all that
is left, so it may hold dots itself. A component `*` is unspecified, and a
device carries its number as trailing digits.

`Selector` is a path taken apart, `Selector.parse` reads one and
`Selector.render` writes one.

Key definitions: `Level`, `Selector`, `Selector.IsShort`, `splitNumber`,
`Selector.parse`, `Selector.render`.
-/
import SignalRegistry.Name
import SignalRegistry.Text.Digits

namespace SignalRegistry

/-- The component with which a path starts. -/
inductive Level where
  | signal
  | block
  | device
  | network
deriving DecidableEq, Repr

/-- How many components are more specific than the level's own. -/
def Level.depth : Level → Nat
  | .signal => 0
  | .block => 1
  | .device => 2
  | .network => 3

/-- The components of a path. An empty name or the device number 0 is
unspecified and, in a search, matches anything. Names that are read from a path
are short. -/
structure Selector where
  signal : SignalName := .empty
  block : BlockName := .empty
  device : BlockName := .empty
  number : UInt32 := 0
  network : NetworkName := .empty
deriving DecidableEq, Inhabited

/-- A device name without its trailing digits, and the number they write,
which stops at the largest device number. No digits write 0. -/
def splitNumber (device : List Char) : List Char × UInt32 :=
  let name := (device.reverse.dropWhile Char.isDigit).reverse
  let digits := (device.reverse.takeWhile Char.isDigit).reverse
  (name, Digits.word digits)

/-- The component before the first dot, empty if it is `*`, and what follows
the dot if there is one. -/
def component (path : List Char) : List Char × Option (List Char) :=
  let part := path.takeWhile (· != '.')
  (if part = ['*'] then [] else part, (path.dropWhile (· != '.')).tail?)

namespace Selector

/-- All names of the selector are short. -/
structure IsShort (s : Selector) : Prop where
  signal : s.signal.IsShort
  block : s.block.IsShort
  device : s.device.IsShort
  network : s.network.IsShort

/-- A selector with names cut to size. -/
def ofNames (signal block device : String) (number : UInt32) (network : String) : Selector where
  signal := .cut 32 signal
  block := .cut 16 block
  device := .cut 16 device
  number := number
  network := .cut 24 network

/-- Nothing is specified; such a selector is never resolved. -/
def isEmpty (s : Selector) : Bool :=
  s.signal.isEmpty && s.block.isEmpty && s.device.isEmpty && s.number == 0 && s.network.isEmpty

/-- The rest of a path is its network; `fallback` stands in for an empty one. -/
def ofNetworkPath (fallback path : List Char) : Selector :=
  { network := .cutChars 24 (if path.isEmpty then fallback else path) }

/-- The device component is cut to size before its number is split off. -/
def ofDevicePath (fallback path : List Char) : Selector :=
  let (part, rest) := component path
  let (name, number) := splitNumber (Name.cutChars 16 part : BlockName).chars
  { ofNetworkPath fallback (rest.getD []) with device := .cutChars 16 name, number := number }

/-- A path that ends with its block is in the fallback network. -/
def ofBlockPath (fallback path : List Char) : Selector :=
  let (part, rest) := component path
  let above := match rest with
    | none => ofNetworkPath fallback []
    | some rest => ofDevicePath fallback rest
  { above with block := .cutChars 16 part }

/-- A path that ends with its signal is in the fallback network. -/
def ofSignalPath (fallback path : List Char) : Selector :=
  let (part, rest) := component path
  let above := match rest with
    | none => ofNetworkPath fallback []
    | some rest => ofBlockPath fallback rest
  { above with signal := .cutChars 32 part }

/-- The components of a path that starts at `level`. `fallback` is the network
of a path that ends before its network component. -/
def parse (level : Level) (fallback path : String) : Selector :=
  match level with
  | .signal => ofSignalPath fallback.toList path.toList
  | .block => ofBlockPath fallback.toList path.toList
  | .device => ofDevicePath fallback.toList path.toList
  | .network => ofNetworkPath fallback.toList path.toList

/-- The device name with its number, if it has one. -/
def deviceChars (s : Selector) : List Char :=
  s.device.chars ++ if s.number = 0 then [] else Digits.digits s.number.toNat

/-- The components as written, the most specific first. -/
def components (s : Selector) : List (List Char) :=
  [s.signal.chars, s.block.chars, s.deviceChars, s.network.chars]

/-- Components joined by dots: those unspecified at the end are left out, the
others are written `*`. -/
def join (parts : List (List Char)) : List Char :=
  let used := (parts.reverse.dropWhile List.isEmpty).reverse
  ['.'].intercalate (used.map fun part => if part.isEmpty then ['*'] else part)

/-- The path that starts at `level`. -/
def render (level : Level) (s : Selector) : String :=
  String.ofList (join (s.components.drop level.depth))

end Selector
end SignalRegistry
