/-
# Names of bounded size

Signals, blocks, devices and networks carry names in buffers of a fixed number
of UTF-8 bytes. A longer text is cut to a run of whole characters at its start:
to the longest that fits (`Name.truncate`), or to the longest that leaves the
last byte of the buffer free (`Name.cut`). Names are cut the second way
wherever they are read or stored; one with its last byte free is short, and
short names are kept as they are (`Name.cut_text`).

Key definitions: `Name`, `Name.truncate`, `Name.cut`, `Name.IsShort`.
Key theorems: `fitting_isPrefix`, `utf8ByteSize_ofList`, `Name.cut_text_eq_iff`,
`Name.cut_text`.
-/
import SignalRegistry.Text.Utf8

namespace SignalRegistry

/-- The UTF-8 size of a string is the sum of the sizes of its characters. -/
theorem utf8ByteSize_ofList (cs : List Char) :
    (String.ofList cs).utf8ByteSize = Utf8.size cs := by
  simp only [String.ofList, String.utf8ByteSize]
  induction cs with
  | nil => rfl
  | cons c cs ih =>
    rw [List.utf8Encode_cons, ByteArray.size_append, ih, Utf8.size]
    simp [List.utf8Encode_singleton, List.size_toByteArray]

/-- The longest run of characters at the start that fits `room` bytes. -/
def fitting : Nat → List Char → List Char
  | _, [] => []
  | room, c :: cs => if c.utf8Size ≤ room then c :: fitting (room - c.utf8Size) cs else []

theorem fitting_isPrefix : ∀ (room : Nat) (cs : List Char), fitting room cs <+: cs
  | _, [] => List.prefix_rfl
  | room, c :: cs => by
    unfold fitting
    split
    · exact List.cons_prefix_cons.2 ⟨rfl, fitting_isPrefix _ cs⟩
    · exact List.nil_prefix

theorem size_fitting_le : ∀ (room : Nat) (cs : List Char), Utf8.size (fitting room cs) ≤ room
  | room, [] => Nat.zero_le room
  | room, c :: cs => by
    unfold fitting
    split
    · have := size_fitting_le (room - c.utf8Size) cs
      rw [Utf8.size]
      omega
    · exact Nat.zero_le room

/-- What fits is kept whole. -/
theorem fitting_eq_self : ∀ (room : Nat) (cs : List Char),
    Utf8.size cs ≤ room → fitting room cs = cs
  | _, [], _ => rfl
  | room, c :: cs, h => by
    rw [Utf8.size] at h
    rw [fitting, if_pos (by omega), fitting_eq_self _ cs (by omega)]

/-- What is cut fills the room but for less than a character. -/
theorem lt_size_fitting : ∀ (room : Nat) (cs : List Char),
    fitting room cs ≠ cs → room < Utf8.size (fitting room cs) + 4
  | _, [], h => absurd rfl h
  | room, c :: cs, h => by
    have hwidth := c.utf8Size_le_four
    unfold fitting at h ⊢
    split at h
    · rename_i hfits
      have hrest := lt_size_fitting (room - c.utf8Size) cs fun he => h (by rw [he])
      rw [if_pos hfits, Utf8.size]
      omega
    · rename_i hover
      rw [if_neg hover, Utf8.size]
      omega

/-- A text of at most `capacity` UTF-8 bytes. -/
structure Name (capacity : Nat) where
  text : String
  fits : text.utf8ByteSize ≤ capacity
deriving DecidableEq

namespace Name

variable {capacity : Nat}

/-- The longest whole-character beginning of a text that fits. -/
def ofChars (capacity : Nat) (cs : List Char) : Name capacity where
  text := String.ofList (fitting capacity cs)
  fits := by rw [utf8ByteSize_ofList]; exact size_fitting_le capacity cs

/-- The longest whole-character beginning of a string that fits. -/
def truncate (capacity : Nat) (s : String) : Name capacity := ofChars capacity s.toList

/-- The longest whole-character beginning of a text that leaves a byte free. -/
def cutChars (capacity : Nat) (cs : List Char) : Name capacity where
  text := String.ofList (fitting (capacity - 1) cs)
  fits := by
    rw [utf8ByteSize_ofList]
    exact Nat.le_trans (size_fitting_le (capacity - 1) cs) (Nat.sub_le capacity 1)

/-- The longest whole-character beginning of a string that leaves a byte free. -/
def cut (capacity : Nat) (s : String) : Name capacity := cutChars capacity s.toList

/-- The name leaves a byte of its buffer free. -/
def IsShort (n : Name capacity) : Prop := n.text.utf8ByteSize ≤ capacity - 1

instance (n : Name capacity) : Decidable n.IsShort :=
  inferInstanceAs (Decidable (n.text.utf8ByteSize ≤ capacity - 1))

def chars (n : Name capacity) : List Char := n.text.toList

def isEmpty (n : Name capacity) : Bool := n.text == ""

def empty : Name capacity := ⟨"", Nat.zero_le _⟩

instance : Inhabited (Name capacity) := ⟨empty⟩

@[ext] theorem ext {a b : Name capacity} (h : a.text = b.text) : a = b := by
  cases a; cases b; simp_all

theorem utf8ByteSize_text (n : Name capacity) : n.text.utf8ByteSize = Utf8.size n.chars := by
  rw [← utf8ByteSize_ofList, chars, String.ofList_toList]

theorem size_chars_le (n : Name capacity) : Utf8.size n.chars ≤ capacity :=
  n.utf8ByteSize_text ▸ n.fits

theorem chars_inj {a b : Name capacity} : a.chars = b.chars ↔ a = b :=
  ⟨fun h => ext (String.toList_inj.1 h), fun h => h ▸ rfl⟩

theorem chars_ofChars (cs : List Char) : (ofChars capacity cs).chars = fitting capacity cs := by
  simp [ofChars, chars]

/-- A name that fits is not cut. -/
@[simp] theorem ofChars_chars (n : Name capacity) : ofChars capacity n.chars = n := by
  rw [← chars_inj, chars_ofChars, fitting_eq_self _ _ n.size_chars_le]

/-! ### Short names -/

theorem chars_cutChars (cs : List Char) :
    (cutChars capacity cs).chars = fitting (capacity - 1) cs := by
  simp [cutChars, chars]

theorem isShort_cutChars (cs : List Char) : (cutChars capacity cs).IsShort := by
  rw [IsShort, utf8ByteSize_text, chars_cutChars]
  exact size_fitting_le (capacity - 1) cs

theorem isShort_cut (s : String) : (cut capacity s).IsShort := isShort_cutChars s.toList

theorem isShort_empty : (empty : Name capacity).IsShort := Nat.zero_le _

/-- The names that are not cut are the short ones. -/
theorem cutChars_chars_eq_iff (n : Name capacity) : cutChars capacity n.chars = n ↔ n.IsShort := by
  refine ⟨fun h => h ▸ isShort_cutChars n.chars, fun h => ?_⟩
  rw [IsShort, utf8ByteSize_text] at h
  rw [← chars_inj, chars_cutChars, fitting_eq_self _ _ h]

theorem cutChars_chars {n : Name capacity} (h : n.IsShort) : cutChars capacity n.chars = n :=
  (cutChars_chars_eq_iff n).2 h

/-- A short name is not cut. -/
theorem cut_text {n : Name capacity} (h : n.IsShort) : cut capacity n.text = n := cutChars_chars h

/-- A name of which little is left when it is cut was not cut. -/
theorem isShort_of_size_cut_le {n : Name capacity}
    (h : (cut capacity n.text).text.utf8ByteSize + 4 ≤ capacity - 1) : n.IsShort := by
  rw [utf8ByteSize_text, cut, chars_cutChars] at h
  refine (cutChars_chars_eq_iff n).1 (chars_inj.1 ?_)
  rw [chars_cutChars]
  refine Decidable.byContradiction fun hcut => ?_
  have hfull := lt_size_fitting _ _ hcut
  rw [chars] at hfull
  omega

@[simp] theorem cut_empty : cut capacity "" = empty := cut_text isShort_empty

/-- A text is kept whole exactly when it leaves a byte free. -/
theorem cut_text_eq_iff (s : String) :
    (cut capacity s).text = s ↔ s.utf8ByteSize ≤ capacity - 1 := by
  refine ⟨fun h => ?_, fun h => ?_⟩
  · have hshort : (cut capacity s).IsShort := isShort_cut s
    rwa [IsShort, h] at hshort
  · rw [← String.ofList_toList (s := s), utf8ByteSize_ofList] at h
    show String.ofList (fitting (capacity - 1) s.toList) = s
    rw [fitting_eq_self _ _ h, String.ofList_toList]

theorem isEmpty_iff (n : Name capacity) : n.isEmpty = true ↔ n.text = "" := by simp [isEmpty]

end Name

/-- The buffer of a signal's name. -/
abbrev SignalName := Name 32

/-- The buffer of the name of a block or device. -/
abbrev BlockName := Name 16

/-- The buffer of a network's name. -/
abbrev NetworkName := Name 24

end SignalRegistry
