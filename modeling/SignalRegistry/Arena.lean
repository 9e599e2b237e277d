/-
# Arenas with generations

An arena keeps items in numbered cells and hands out a handle for each. A
handle holds the number of the cell and the generation the cell had when the
item was put there; erasing an item advances the generation, so that a handle
never leads to an item that came later into the same cell. Cells given up are
used again, the last one first. Generations wrap after 2^32 erasures of one
cell.

Key definitions: `Handle`, `Arena`, `Arena.get?`, `Arena.insert`,
`Arena.erase`, `Arena.modify`.
Key theorems: `Arena.get?_empty`, `Arena.get?_modify`, `Arena.get?_erase`.
-/

namespace SignalRegistry

/-- The number of a cell and the generation it is meant for. -/
structure Handle where
  index : Nat
  generation : UInt32
deriving DecidableEq, Inhabited, Repr

/-- A numbered place: empty, or with the item that the current generation leads to. -/
structure Cell (α : Type) where
  content : Option α
  generation : UInt32

/-- The cells by number, and which of them are empty. -/
structure Arena (α : Type) where
  cells : Array (Cell α) := #[]
  /-- The empty cells, the one emptied last first. -/
  free : List Nat := []

namespace Arena

variable {α : Type}

def empty : Arena α := {}

instance : Inhabited (Arena α) := ⟨empty⟩

/-- The item a handle leads to. -/
def get? (a : Arena α) (h : Handle) : Option α :=
  match a.cells[h.index]? with
  | some cell => if cell.generation = h.generation then cell.content else none
  | none => none

/-- The cell that takes the next item. -/
def nextHandle (a : Arena α) : Handle :=
  match a.free with
  | i :: _ => ⟨i, (a.cells[i]?.map Cell.generation).getD 0⟩
  | [] => ⟨a.cells.size, 0⟩

/-- Puts an item into the cell emptied last, or a new one, and returns its
handle. -/
def insert (a : Arena α) (item : α) : Arena α × Handle :=
  let cells := match a.free with
    | i :: _ => a.cells.modify i fun cell => { cell with content := some item }
    | [] => a.cells.push ⟨some item, 0⟩
  ({ cells := cells, free := a.free.tail }, a.nextHandle)

/-- Changes the item a handle leads to, if it leads to one. -/
def modify (a : Arena α) (h : Handle) (f : α → α) : Arena α :=
  if (a.get? h).isSome then
    { a with cells := a.cells.modify h.index fun cell => { cell with content := cell.content.map f } }
  else a

/-- Takes an item out, if the handle leads to one. -/
def erase (a : Arena α) (h : Handle) : Arena α :=
  if (a.get? h).isSome then
    { cells := a.cells.modify h.index fun cell => ⟨none, cell.generation + 1⟩
      free := h.index :: a.free }
  else a

@[simp] theorem get?_empty (h : Handle) : (empty : Arena α).get? h = none := by
  simp [get?, empty]

/-- Changing one item leaves all others as they are. -/
theorem get?_modify (a : Arena α) (h k : Handle) (f : α → α) :
    (a.modify h f).get? k = if h = k then (a.get? k).map f else a.get? k := by
  unfold modify
  split
  · rename_i hs
    unfold get? at hs ⊢
    simp only [Array.getElem?_modify]
    by_cases hi : h.index = k.index
    · rw [if_pos hi]
      rw [hi] at hs
      cases hc : a.cells[k.index]? with
      | none => simp
      | some cell =>
        rw [hc] at hs
        by_cases hg : cell.generation = h.generation
        · by_cases hk : h = k
          · subst hk; simp [hg]
          · have hne : ¬ cell.generation = k.generation := by
              intro hgk
              apply hk
              cases h; cases k
              simp_all
            simp [hk, hne]
        · simp [hg] at hs
    · rw [if_neg hi, if_neg (by rintro rfl; exact hi rfl)]
  · rename_i hs
    split
    · subst h
      simp only [Bool.not_eq_true, Option.isSome_eq_false_iff, Option.isNone_iff_eq_none] at hs
      simp [hs]
    · rfl

/-- A handle that was erased leads nowhere, and all others lead where they led. -/
theorem get?_erase (a : Arena α) (h k : Handle) :
    (a.erase h).get? k = if h = k then none else a.get? k := by
  unfold erase
  split
  · rename_i hs
    unfold get? at hs ⊢
    simp only [Array.getElem?_modify]
    by_cases hi : h.index = k.index
    · rw [if_pos hi]
      rw [hi] at hs
      cases hc : a.cells[k.index]? with
      | none => simp
      | some cell =>
        rw [hc] at hs
        by_cases hg : cell.generation = h.generation
        · by_cases hk : h = k
          · simp [hk]
          · have hne : ¬ cell.generation = k.generation := by
              intro hgk
              apply hk
              cases h; cases k
              simp_all
            simp [hk, hne]
        · simp [hg] at hs
    · rw [if_neg hi, if_neg (by rintro rfl; exact hi rfl)]
  · rename_i hs
    split
    · subst h
      simpa using hs
    · rfl

end Arena
end SignalRegistry
