/-
# Device names and their numbers

A device name is a name that does not end in a digit, with the digits of a number
after it, of which there may be none (`Numbered`). `splitNumber` finds the two parts
of any text, and the number is what the digits write in base ten, or the largest word
if they write more (`splitNumber_eq_iff`): leading zeros do not count, and a number
that has passed the largest word stays there, whatever digits follow.

The digits are found by a scan from the end of the text, which knows the byte at
which each character starts (`digitsStart`). `checkedSplit?` cuts the bytes there and
reads the number byte by byte; it is `none` if the cut is within a character, or if a
byte comes before that of a zero. It always has a result, and that is what
`splitNumber` gives (`checkedSplit?_eq`).

Key definitions: `digitsStart`, `checkedSplit?`.
Key theorems: `Digits.value_eq_ofDigits`, `splitNumber_eq_iff`,
`Numbered.digitsStart_eq`, `checkedSplit?_eq`, `splitNumber_exact`.
-/
import Mathlib.Data.Nat.Digits.Defs
import SignalRegistry.Proofs.PathRoundTrip

namespace SignalRegistry

/-! ### The name and the number -/

namespace Digits

/-- The last digit of a run counts ones, the one before it tens, and so on. -/
theorem value_eq_ofDigits (ds : List Char) :
    value ds = Nat.ofDigits 10 (ds.reverse.map digitValue) := by
  induction ds using List.reverseRecOn with
  | nil => rfl
  | append_singleton ds c ih =>
    rw [value_append_singleton, List.reverse_append, List.reverse_singleton,
      List.singleton_append, List.map_cons, Nat.ofDigits_cons, ih, Nat.add_comm]

/-- The nearest word is the value in base ten, or the largest word if that is less. -/
theorem nearestWord_value_eq_iff (ds : List Char) (number : UInt32) :
    nearestWord (value ds) = number ↔
      number.toNat = min (Nat.ofDigits 10 (ds.reverse.map digitValue)) (2 ^ 32 - 1) := by
  rw [← value_eq_ofDigits, ← UInt32.toNat_inj, toNat_nearestWord]
  exact eq_comm

end Digits

variable {device name digits : List Char} {number : UInt32}

/-- A text is split into the name and the number that it is made of. -/
theorem splitNumber_eq_iff : splitNumber device = (name, number) ↔
    ∃ digits, Numbered device name digits ∧
      number.toNat = min (Nat.ofDigits 10 (digits.reverse.map Digits.digitValue)) (2 ^ 32 - 1) := by
  constructor
  · intro h
    obtain ⟨name', digits, hdevice⟩ := exists_numbered device
    rw [hdevice.splitNumber_eq] at h
    obtain ⟨rfl, hword⟩ := Prod.mk.inj h
    exact ⟨digits, hdevice, (Digits.nearestWord_value_eq_iff _ _).1 hword⟩
  · rintro ⟨digits, hdevice, hvalue⟩
    rw [hdevice.splitNumber_eq, (Digits.nearestWord_value_eq_iff _ _).2 hvalue]

/-! ### The byte at which the digits start -/

namespace Utf8

/-- The characters of a text with the bytes at which they start, the first of them
at `start`. -/
def indices : Nat → List Char → List (Nat × Char)
  | _, [] => []
  | start, c :: cs => (start, c) :: indices (start + c.utf8Size) cs

theorem indices_append (start : Nat) (a b : List Char) :
    indices start (a ++ b) = indices start a ++ indices (start + size a) b := by
  induction a generalizing start with
  | nil => rfl
  | cons c a ih => rw [List.cons_append, indices, indices, ih, size, List.cons_append, Nat.add_assoc]

theorem map_snd_indices (start : Nat) (cs : List Char) : (indices start cs).map Prod.snd = cs := by
  induction cs generalizing start with
  | nil => rfl
  | cons c cs ih => rw [indices, List.map_cons, ih]

end Utf8

/-- The byte at which the digits at the end of a text start. The scan from the end
takes characters as long as they are digits, and the last one taken starts there;
if none is taken it is the end of the text. -/
def digitsStart (device : List Char) : Nat :=
  (((Utf8.indices 0 device).reverse.takeWhile (·.2.isDigit)).getLast?.map Prod.fst).getD
    (Utf8.size device)

/-- The scan stops between the name and the digits, whatever the characters before
them are. -/
theorem Numbered.digitsStart_eq (h : Numbered device name digits) :
    digitsStart device = Utf8.size name := by
  have hdigits : ∀ p ∈ (Utf8.indices (0 + Utf8.size name) digits).reverse,
      p.2.isDigit = true := by
    intro p hp
    apply h.isDigit
    rw [← Utf8.map_snd_indices (0 + Utf8.size name) digits]
    exact List.mem_map_of_mem (List.mem_reverse.1 hp)
  have hname : (Utf8.indices 0 name).reverse.takeWhile (·.2.isDigit) = [] := by
    rcases List.eq_nil_or_concat name with hnil | ⟨init, last, hlast⟩
    · rw [hnil]
      rfl
    · rw [List.concat_eq_append] at hlast
      have hend := h.nameEnd last (by rw [hlast, List.getLast?_concat])
      rw [hlast, Utf8.indices_append, List.reverse_append, Utf8.indices,
        Utf8.indices, List.reverse_singleton, List.singleton_append,
        List.takeWhile_cons_of_neg (by rw [hend]; exact Bool.false_ne_true)]
  unfold digitsStart
  rw [h.parts, Utf8.indices_append, List.reverse_append, List.takeWhile_append_of_pos hdigits,
    hname, List.append_nil, List.getLast?_reverse]
  -- Without digits the scan takes nothing, and the text ends with the name.
  cases digits with
  | nil => simp [Utf8.indices]
  | cons c cs => simp [Utf8.indices]

/-! ### Splitting the bytes -/

namespace Digits

/-- A number with the digit of one more byte, which has to be the byte of a zero at
least. -/
def pushByte? (n : UInt32) (b : UInt8) : Option UInt32 :=
  if 48 ≤ b then some (pushDigit n (b - 48).toNat) else none

theorem pushByte?_of_isDigit {c : Char} (hc : c.isDigit = true) (n : UInt32) :
    pushByte? n c.val.toUInt8 = some (pushDigit n (digitValue c)) := by
  have hbounds : 48 ≤ c.toNat ∧ c.toNat ≤ 57 := Char.isDigit_iff_toNat.1 hc
  have hbyte : c.val.toUInt8.toNat = c.toNat := by
    rw [UInt32.toNat_toUInt8]
    exact Nat.mod_eq_of_lt (show c.toNat < 2 ^ 8 by omega)
  have hle : 48 ≤ c.val.toUInt8 := UInt8.le_iff_toNat_le.2 (hbyte ▸ hbounds.1)
  unfold pushByte?
  rw [if_pos hle, UInt8.toNat_sub_of_le _ _ hle, hbyte]
  rfl

/-- Digits are read from their bytes one by one. -/
theorem foldlM_pushByte? (hds : ∀ c ∈ digits, c.isDigit = true) (n : UInt32) :
    (Utf8.encode digits).foldlM pushByte? n =
      some (digits.foldl (fun n c => pushDigit n (digitValue c)) n) := by
  induction digits generalizing n with
  | nil => rfl
  | cons c cs ih =>
    have hc := hds c List.mem_cons_self
    have hencode : Utf8.encode (c :: cs) = c.val.toUInt8 :: Utf8.encode cs := by
      rw [Utf8.encode, List.flatMap_cons,
        String.utf8EncodeChar_eq_singleton (utf8Size_of_isDigit hc)]
      rfl
    rw [hencode, List.foldlM_cons, pushByte?_of_isDigit hc, List.foldl_cons]
    exact ih (fun d hd => hds d (List.mem_cons_of_mem c hd)) _

end Digits

/-- The split on the bytes of a text: cut where the digits start, with a name before
the cut that has to be text, and the number read from the bytes after it. -/
def checkedSplit? (device : List Char) : Option (List Char × UInt32) := do
  let bytes := Utf8.encode device
  let name ← Utf8.decode? (bytes.take (digitsStart device))
  let number ← (bytes.drop (digitsStart device)).foldlM Digits.pushByte? 0
  return (name, number)

/-- The cut is never within a character, and every byte after it is a digit. -/
theorem checkedSplit?_eq (device : List Char) :
    checkedSplit? device = some (splitNumber device) := by
  obtain ⟨name, digits, hdevice⟩ := exists_numbered device
  have hbytes : Utf8.encode device = Utf8.encode name ++ Utf8.encode digits := by
    rw [hdevice.parts, Utf8.encode_append]
  have hstart : digitsStart device = (Utf8.encode name).length := by
    rw [hdevice.digitsStart_eq, Utf8.length_encode]
  have hread : (Utf8.encode digits).foldlM Digits.pushByte? 0 =
      some (Digits.nearestWord (Digits.value digits)) := by
    rw [Digits.foldlM_pushByte? hdevice.isDigit, ← Digits.word_eq]
    rfl
  unfold checkedSplit?
  simp only [hbytes, hstart, List.take_left, List.drop_left, Utf8.decode?_encode, hread,
    hdevice.splitNumber_eq]
  rfl

/-! ### The split -/

/-- **A device name is split exactly.** The split has a result for every text: the name
before the digits at its end, and the number that these write in base ten, or the
largest word if they write more. So a name that does not end in a digit is found again
before the digits of any number. -/
theorem splitNumber_exact (device name : List Char) (number : UInt32) :
    checkedSplit? device = some (splitNumber device) ∧
    (splitNumber device = (name, number) ↔ ∃ digits, Numbered device name digits ∧
      number.toNat = min (Nat.ofDigits 10 (digits.reverse.map Digits.digitValue)) (2 ^ 32 - 1)) ∧
    ((∀ c, name.getLast? = some c → c.isDigit = false) →
      splitNumber (name ++ Digits.digits number.toNat) = (name, number)) :=
  ⟨checkedSplit?_eq device, splitNumber_eq_iff, fun hname =>
    splitNumber_append_digits hname number⟩

/-- Two leading zeros and a number just past the words, after a character of two bytes. -/
theorem splitNumber_exact_overlong :
    (∀ c, ['t', 'ü', 'r'].getLast? = some c → c.isDigit = false) ∧
    checkedSplit? "tür004294967296".toList = some (['t', 'ü', 'r'], 4294967295) ∧
    splitNumber "tür004294967296".toList = (['t', 'ü', 'r'], 4294967295) ∧
    splitNumber (['t', 'ü', 'r'] ++ Digits.digits 4294967295) = (['t', 'ü', 'r'], 4294967295) := by
  have hname : ∀ c, ['t', 'ü', 'r'].getLast? = some c → c.isDigit = false := by
    intro c hc
    rw [← Option.some.inj hc]
    rfl
  obtain ⟨hchecked, hsplit, hagain⟩ :=
    splitNumber_exact "tür004294967296".toList ['t', 'ü', 'r'] 4294967295
  have hdigits : ∀ c ∈ "004294967296".toList, c.isDigit = true := List.all_eq_true.1 (by decide)
  have hoverlong := hsplit.2 ⟨"004294967296".toList, ⟨rfl, hdigits, hname⟩, by decide⟩
  rw [hoverlong] at hchecked
  exact ⟨hname, hchecked, hoverlong, hagain hname⟩

end SignalRegistry
