/-
# The memory of all blocks

Blocks are published by connections and referred to by number. Their bytes
change, their identities do not, and a number is never given out again. How far
a block can grow is up to the allocator.

Key definitions: `Memory`, `Memory.publish`, `Memory.ref?`, `Memory.bytes`,
`Memory.grow`.
Key theorems: `Memory.id_of_ref?`, `Memory.ref?_change`.
-/
import SignalRegistry.Block.Typed
import SignalRegistry.Shortcuts

namespace SignalRegistry

/-- Every block ever published, by number, and what the allocator does. -/
structure Memory where
  blocks : Array Block := #[]
  /-- Whether the block of a number may grow to a size. -/
  grants : Nat → Nat → Bool := fun _ _ => true

namespace Memory

/-- Adds a block under the next number. -/
def publish (m : Memory) (block : Block) : Memory × BlockRef :=
  ({ m with blocks := m.blocks.push block }, ⟨m.blocks.size, block.identity⟩)

def block? (m : Memory) (id : Nat) : Option Block := m.blocks[id]?

/-- The reference to a block. -/
def ref? (m : Memory) (id : Nat) : Option BlockRef :=
  (m.block? id).map fun b => ⟨id, b.identity⟩

/-- The bytes of a block; there are none where there is no block. -/
def bytes (m : Memory) (id : Nat) : Octets := ((m.block? id).map Block.bytes).getD []

def size (m : Memory) (id : Nat) : Nat := (m.bytes id).length

/-- Changes a block, unless that fails. A block that is not there cannot be
found. -/
def change (m : Memory) (id : Nat) (f : Block → Except Error Block) :
    Memory × Except Error Unit :=
  match m.block? id with
  | none => (m, .error (.notFound .block))
  | some b =>
    match f b with
    | .ok changed =>
      ({ m with blocks := m.blocks.setIfInBounds id { changed with identity := b.identity } }, .ok ())
    | .error e => (m, .error e)

/-- Grows a block to a size, as far as the allocator grants it. -/
def grow (m : Memory) (id size : Nat) : Memory × Except Error Unit :=
  m.change id fun b => b.growWithin (m.grants id) size

/-- A reference is found under its own number. -/
theorem id_of_ref? {m : Memory} {id : Nat} {ref : BlockRef} (h : m.ref? id = some ref) :
    ref.id = id := by
  obtain ⟨b, -, rfl⟩ := Option.map_eq_some_iff.1 h
  rfl

/-- Changing bytes leaves all references as they are. -/
theorem ref?_change (m : Memory) (id k : Nat) (f : Block → Except Error Block) :
    (m.change id f).1.ref? k = m.ref? k := by
  unfold change
  split
  · rfl
  · rename_i b hb
    split
    · simp only [ref?, block?, Array.getElem?_setIfInBounds] at *
      by_cases h : id = k
      · subst h
        rw [if_pos rfl]
        split
        · simp [hb]
        · rename_i hlt
          simp [Array.getElem?_eq_none (Nat.le_of_not_lt hlt)]
      · rw [if_neg h]
    · rfl

end Memory
end SignalRegistry
