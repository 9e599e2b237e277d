/-
# Shortcuts to memory blocks

A network keeps a list of shortcuts to the blocks that feed it, so that the
block of a signal is found without a search through all blocks. The list is
doubly linked through an arena: appending and releasing touch no more than
the neighbours.

A shortcut does not keep its block alive. Which blocks are alive is told from
outside, as a predicate; a search releases the shortcuts to blocks that are
gone as it meets them.

Key definitions: `BlockRef`, `Shortcuts`, `Shortcuts.push`,
`Shortcuts.erase`, `Shortcuts.lookup`, `Shortcuts.purge`.
-/
import SignalRegistry.Arena
import SignalRegistry.Block

namespace SignalRegistry

/-- A reference to a memory block: the number that tells it from all others,
and its identity, which never changes. -/
structure BlockRef where
  id : Nat
  identity : BlockIdentity
deriving DecidableEq, Inhabited

/-- A shortcut and its neighbours. -/
structure ShortcutNode where
  block : BlockRef
  prev : Option Handle
  next : Option Handle

/-- The nodes from a handle on, at most `fuel` of them. -/
def follow (arena : Arena ShortcutNode) (step : ShortcutNode → Option Handle) :
    Nat → Option Handle → List (Handle × BlockRef)
  | _, none => []
  | 0, _ => []
  | fuel + 1, some h =>
    match arena.get? h with
    | none => []
    | some node => (h, node.block) :: follow arena step fuel (step node)

/-- The list by its two ends, with its nodes in an arena. -/
structure Shortcuts where
  arena : Arena ShortcutNode := .empty
  head : Option Handle := none
  tail : Option Handle := none
  size : Nat := 0

namespace Shortcuts

def empty : Shortcuts := {}

instance : Inhabited Shortcuts := ⟨empty⟩

def isEmpty (l : Shortcuts) : Bool := l.size == 0

/-- The shortcuts with their handles, head to tail. -/
def toList (l : Shortcuts) : List (Handle × BlockRef) :=
  follow l.arena ShortcutNode.next l.arena.cells.size l.head

/-- The shortcuts with their handles, tail to head. -/
def toListBack (l : Shortcuts) : List (Handle × BlockRef) :=
  follow l.arena ShortcutNode.prev l.arena.cells.size l.tail

/-- The blocks of all shortcuts, gone or not, head to tail. -/
def blocks (l : Shortcuts) : List BlockRef := l.toList.map Prod.snd

/-- Makes `next` follow the node of `at?`, or the head if there is none. -/
def setNext (l : Shortcuts) (at? next : Option Handle) : Shortcuts :=
  match at? with
  | some h => { l with arena := l.arena.modify h fun node => { node with next := next } }
  | none => { l with head := next }

/-- Makes `prev` precede the node of `at?`, or the tail if there is none. -/
def setPrev (l : Shortcuts) (at? prev : Option Handle) : Shortcuts :=
  match at? with
  | some h => { l with arena := l.arena.modify h fun node => { node with prev := prev } }
  | none => { l with tail := prev }

/-- Appends a shortcut at the tail. -/
def push (l : Shortcuts) (block : BlockRef) : Shortcuts × Handle :=
  let (arena, h) := l.arena.insert ⟨block, l.tail, none⟩
  ({ { l with arena := arena }.setNext l.tail (some h) with tail := some h, size := l.size + 1 }, h)

/-- Unlinks a shortcut; the answer is whether the handle led to one. -/
def erase (l : Shortcuts) (h : Handle) : Shortcuts × Bool :=
  match l.arena.get? h with
  | none => (l, false)
  | some node =>
    let l := { l with arena := l.arena.erase h, size := l.size - 1 }
    ((l.setNext node.prev node.next).setPrev node.next node.prev, true)

/-- Unlinks the shortcuts of the handles; the answer is how many there were. -/
def eraseEach (l : Shortcuts) : List Handle → Shortcuts × Nat
  | [] => (l, 0)
  | h :: hs =>
    let (l, released) := l.erase h
    let (l, count) := l.eraseEach hs
    (l, released.toNat + count)

/-- The first living block of this name, device and number. Shortcuts to
blocks of that name that are gone, met on the way, are released. -/
def lookup (alive : Nat → Bool) (l : Shortcuts) (block device : String) (number : UInt32) :
    Shortcuts × Option BlockRef :=
  let named := l.toList.filter fun entry => entry.2.identity.isOf block device number
  let gone := named.takeWhile fun entry => !alive entry.2.id
  let found := (named.dropWhile fun entry => !alive entry.2.id).head?
  ((l.eraseEach (gone.map Prod.fst)).1, found.map Prod.snd)

/-- The handle of the first shortcut to a block. -/
def handleOf? (l : Shortcuts) (id : Nat) : Option Handle :=
  (l.toList.find? fun entry => entry.2.id == id).map Prod.fst

/-- Releases the shortcuts to blocks that are gone and to the block `deleted`,
if one is given; the answer is how many there were. -/
def purge (alive : Nat → Bool) (l : Shortcuts) (deleted : Option Nat) : Shortcuts × Nat :=
  let doomed := l.toList.filter fun entry => deleted == some entry.2.id || !alive entry.2.id
  l.eraseEach (doomed.map Prod.fst)

/-- The living blocks, head to tail. -/
def living (alive : Nat → Bool) (l : Shortcuts) : List BlockRef :=
  l.blocks.filter fun block => alive block.id

end Shortcuts
end SignalRegistry
