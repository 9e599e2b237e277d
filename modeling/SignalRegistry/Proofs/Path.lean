/-
# Paths that are read as they were written

A path with all four components is written with dots between them
(`Selector.toList_render`), and what is read back are the components, the
device cut to its size before its number is split off
(`Selector.parse_render`). A number that is cut loses its last digits
(`Digits.value_take_digits`), so it is read back exactly if it is kept whole
(`Digits.value_take_eq_iff`).

Key definitions: `Numbered`, `Selector.Plain`, `Selector.readNumber`.
Key theorems: `Digits.value_take_eq_iff`, `Numbered.splitNumber_eq`,
`Selector.toList_render`, `Selector.parse_render`.
-/
import Mathlib.Algebra.Group.Nat.Defs
import Mathlib.Data.List.TakeWhile
import SignalRegistry.Path

namespace SignalRegistry

/-! ### Numbers cut short -/

namespace Digits

theorem digits_length_pos (n : Nat) : 0 < (digits n).length :=
  List.length_pos_iff.2 (digits_ne_nil n)

/-- Leaving out digits at the end divides by powers of ten. -/
theorem value_take_digits (n : Nat) : ∀ k, k ≤ (digits n).length →
    value ((digits n).take k) = n / 10 ^ ((digits n).length - k) := by
  fun_induction digits n with
  | case1 n h =>
    intro k hk
    rw [List.length_singleton] at hk ⊢
    rcases Nat.le_one_iff_eq_zero_or_eq_one.1 hk with rfl | rfl
    · rw [List.take_zero, Nat.sub_zero, Nat.pow_one, Nat.div_eq_of_lt h]
      rfl
    · rw [List.take_of_length_le (by simp), Nat.sub_self, Nat.pow_zero, Nat.div_one]
      simpa [value, digitValue_digit] using Nat.mod_eq_of_lt h
  | case2 n h ih =>
    intro k hk
    rw [List.length_append, List.length_singleton] at hk ⊢
    rcases Nat.lt_or_ge (digits (n / 10)).length k with hlt | hle
    · obtain rfl : k = (digits (n / 10)).length + 1 := by omega
      rw [List.take_of_length_le (by simp), Nat.sub_self, Nat.pow_zero, Nat.div_one,
        value_append_singleton, value_digits, digitValue_digit]
      omega
    · rw [List.take_append_of_le_length hle, ih k hle, Nat.div_div_eq_div_mul, Nat.mul_comm,
        ← Nat.pow_succ]
      congr 2
      omega

/-- A numeral has no leading zero. -/
theorem pow_length_le {n : Nat} (hn : 0 < n) : 10 ^ ((digits n).length - 1) ≤ n := by
  fun_induction digits n with
  | case1 n h => exact hn
  | case2 n h ih =>
    rw [List.length_append, List.length_singleton, Nat.add_sub_cancel]
    have ih := ih (by omega)
    have hpos := digits_length_pos (n / 10)
    calc 10 ^ (digits (n / 10)).length
        = 10 ^ ((digits (n / 10)).length - 1) * 10 := by rw [← Nat.pow_succ]; congr 1; omega
      _ ≤ n / 10 * 10 := Nat.mul_le_mul_right 10 ih
      _ ≤ n := Nat.div_mul_le_self n 10

/-- A number is read back from the beginning of its numeral exactly if that
is the whole, and as zero exactly if nothing is left of it. -/
theorem value_take_eq_iff {n : Nat} (hn : 0 < n) (k : Nat) :
    (value ((digits n).take k) = n ↔ (digits n).length ≤ k) ∧
      (value ((digits n).take k) = 0 ↔ k = 0) ∧ value ((digits n).take k) ≤ n := by
  rcases Nat.eq_zero_or_pos k with rfl | hk
  · have hpos := digits_length_pos n
    have hz : value ((digits n).take 0) = 0 := rfl
    rw [hz]
    exact ⟨iff_of_false (Nat.ne_of_lt hn) (by omega), iff_of_true rfl rfl, Nat.zero_le n⟩
  · rcases Nat.lt_or_ge k (digits n).length with hlt | hge
    · rw [value_take_digits n k (Nat.le_of_lt hlt)]
      have hpow : 1 < 10 ^ ((digits n).length - k) := Nat.one_lt_pow (by omega) (by omega)
      have hle : 10 ^ ((digits n).length - k) ≤ n :=
        Nat.le_trans (Nat.pow_le_pow_right (by omega) (by omega)) (pow_length_le hn)
      exact ⟨iff_of_false (Nat.ne_of_lt (Nat.div_lt_self hn hpow)) (by omega),
        iff_of_false (Nat.ne_of_gt (Nat.div_pos hle (by omega))) (by omega), Nat.div_le_self n _⟩
    · rw [List.take_of_length_le hge, value_digits]
      exact ⟨iff_of_true rfl hge, iff_of_false (Nat.ne_of_gt hn) (by omega), Nat.le_refl n⟩

theorem utf8Size_of_isDigit {c : Char} (hc : c.isDigit = true) : c.utf8Size = 1 := by
  unfold Char.isDigit at hc
  unfold Char.utf8Size
  simp only [Bool.and_eq_true, decide_eq_true_eq] at hc
  rw [if_pos]
  exact UInt32.le_trans hc.2 (by decide)

theorem ne_dot_of_isDigit {c : Char} (hc : c.isDigit = true) : c ≠ '.' := by
  rintro rfl
  cases hc

end Digits
/-! ### Parts of a path -/

/-- What fits whole leaves its room to what follows. -/
theorem fitting_append : ∀ (room : Nat) (a b : List Char), Utf8.size a ≤ room →
    fitting room (a ++ b) = a ++ fitting (room - Utf8.size a) b
  | room, [], b, _ => by simp [Utf8.size]
  | room, c :: a, b, h => by
    rw [Utf8.size] at h
    rw [List.cons_append, fitting, if_pos (by omega), fitting_append _ a b (by omega),
      Utf8.size, Nat.sub_sub, List.cons_append]

/-- Digits are cut one by one. -/
theorem fitting_digits : ∀ (room : Nat) (ds : List Char), (∀ c ∈ ds, c.isDigit = true) →
    fitting room ds = ds.take room
  | room, [], _ => by simp [fitting]
  | 0, c :: ds, h => by
    rw [fitting, Digits.utf8Size_of_isDigit (h c List.mem_cons_self), if_neg (by omega),
      List.take_zero]
  | room + 1, c :: ds, h => by
    rw [fitting, Digits.utf8Size_of_isDigit (h c List.mem_cons_self), if_pos (by omega),
      Nat.add_sub_cancel, fitting_digits room ds fun d hd => h d (List.mem_cons_of_mem c hd),
      List.take_succ_cons]

/-- The first component of a path ends at the first dot. -/
theorem component_append {part rest : List Char} (hp : '.' ∉ part) :
    component (part ++ '.' :: rest) = (if part = ['*'] then [] else part, some rest) := by
  have hne : ∀ c ∈ part, (c != '.') = true := fun c hc => bne_iff_ne.2 fun h => hp (h ▸ hc)
  unfold component
  rw [List.takeWhile_append_of_pos hne, List.dropWhile_append_of_pos hne]
  simp

/-- A device name is a name that does not end in a digit, and the digits of its
number after it. -/
structure Numbered (device name digits : List Char) : Prop where
  parts : device = name ++ digits
  isDigit : ∀ c ∈ digits, c.isDigit = true
  nameEnd : ∀ c, name.getLast? = some c → c.isDigit = false

/-- The digits at the end of a device name are its number. -/
theorem Numbered.splitNumber_eq {device name digits : List Char}
    (h : Numbered device name digits) :
    splitNumber device = (name, Digits.nearestWord (Digits.value digits)) := by
  have hrev : ∀ c ∈ digits.reverse, c.isDigit = true := fun c hc =>
    h.isDigit c (List.mem_reverse.1 hc)
  have htake : name.reverse.takeWhile Char.isDigit = [] := by
    rcases hn : name.reverse with _ | ⟨c, cs⟩
    · rfl
    · have hc := h.nameEnd c (by rw [← List.head?_reverse, hn, List.head?_cons])
      rw [List.takeWhile_cons, hc]
      rfl
  have hdrop : name.reverse.dropWhile Char.isDigit = name.reverse := by
    have := List.takeWhile_append_dropWhile (p := Char.isDigit) (l := name.reverse)
    rwa [htake, List.nil_append] at this
  rw [h.parts]
  unfold splitNumber
  simp only [List.reverse_append, List.takeWhile_append_of_pos hrev,
    List.dropWhile_append_of_pos hrev, htake, hdrop, List.append_nil, List.reverse_reverse,
    Digits.word_eq]

namespace Selector

/-- Components that are all there are written with dots between them. -/
theorem join_of_ne_nil {parts : List (List Char)} (hp : ∀ part ∈ parts, part ≠ []) :
    join parts = ['.'].intercalate parts := by
  have hused : (parts.reverse.dropWhile List.isEmpty).reverse = parts := by
    have hdrop : parts.reverse.dropWhile List.isEmpty = parts.reverse := by
      rcases hr : parts.reverse with _ | ⟨part, rest⟩
      · rfl
      · have hne := hp part (List.mem_reverse.1 (hr ▸ List.mem_cons_self))
        rw [List.dropWhile_cons_of_neg (by simpa using hne)]
    rw [hdrop, List.reverse_reverse]
  unfold join
  simp only [hused]
  rw [List.map_congr_left (g := id) fun part hpart => ?_, List.map_id]
  simp [hp part hpart]

/-- Names and a number that a path can carry: all are given and short, no name
but that of the network has a dot, those of the signal and the block are not a
star, and that of the device does not end in a digit. -/
structure Plain (s : Selector) : Prop where
  signal : s.signal.text ≠ "" ∧ s.signal.text ≠ "*" ∧ '.' ∉ s.signal.chars
  block : s.block.text ≠ "" ∧ s.block.text ≠ "*" ∧ '.' ∉ s.block.chars
  device : s.device.text ≠ "" ∧ '.' ∉ s.device.chars
  deviceEnd : ∀ c, s.device.chars.getLast? = some c → c.isDigit = false
  number : s.number ≠ 0
  network : s.network.text ≠ ""
  short : s.IsShort

/-- The number that is read back: what the digits write that fit the room
beside the device name. -/
def readNumber (s : Selector) : UInt32 :=
  UInt32.ofNat (Digits.value
    ((Digits.digits s.number.toNat).take (15 - s.device.text.utf8ByteSize)))

variable {s : Selector}

theorem chars_ne_nil {capacity : Nat} {n : Name capacity} (hn : n.text ≠ "") : n.chars ≠ [] := by
  intro h
  apply hn
  rw [← String.ofList_toList (s := n.text)]
  exact congrArg String.ofList h

theorem chars_ne_star {capacity : Nat} {n : Name capacity} (hn : n.text ≠ "*") :
    n.chars ≠ ['*'] := by
  intro h
  apply hn
  rw [← String.ofList_toList (s := n.text)]
  exact congrArg String.ofList h

theorem Plain.number_pos (h : s.Plain) : 0 < s.number.toNat := by
  have hne : s.number.toNat ≠ 0 := fun h0 => h.number (UInt32.toNat_inj.1 h0)
  omega

theorem Plain.deviceChars (h : s.Plain) :
    s.deviceChars = s.device.chars ++ Digits.digits s.number.toNat := by
  unfold Selector.deviceChars
  rw [if_neg h.number]

/-- A path with all components. -/
theorem toList_render (h : s.Plain) : (s.render .signal).toList =
    s.signal.chars ++ '.' :: (s.block.chars ++ '.' :: (s.deviceChars ++ '.' :: s.network.chars)) := by
  have hne : ∀ part ∈ s.components, part ≠ [] := by
    intro part hpart
    simp only [components, List.mem_cons, List.not_mem_nil, or_false] at hpart
    rcases hpart with rfl | rfl | rfl | rfl
    · exact chars_ne_nil h.signal.1
    · exact chars_ne_nil h.block.1
    · rw [h.deviceChars]
      exact List.append_ne_nil_of_left_ne_nil (chars_ne_nil h.device.1) _
    · exact chars_ne_nil h.network
  unfold render
  rw [String.toList_ofList, Level.depth, List.drop_zero, join_of_ne_nil hne]
  simp [components, List.intercalate]

/-- The device component is cut within its digits. -/
theorem chars_cutChars_deviceChars (h : s.Plain) :
    (Name.cutChars 16 s.deviceChars : BlockName).chars =
      s.device.chars ++ (Digits.digits s.number.toNat).take (15 - s.device.text.utf8ByteSize) := by
  have hsize : Utf8.size s.device.chars ≤ 15 := s.device.utf8ByteSize_text ▸ h.short.device
  rw [Name.chars_cutChars, h.deviceChars, fitting_append _ _ _ hsize,
    ← s.device.utf8ByteSize_text, fitting_digits _ _ (Digits.digits_isDigit _)]

theorem ofDevicePath_append (h : s.Plain) (fallback : List Char) :
    ofDevicePath fallback (s.deviceChars ++ '.' :: s.network.chars) =
      { device := s.device, number := s.readNumber, network := s.network } := by
  let ds := (Digits.digits s.number.toNat).take (15 - s.device.text.utf8ByteSize)
  have hds : ∀ c ∈ ds, c.isDigit = true := fun c hc =>
    Digits.digits_isDigit _ c (List.mem_of_mem_take hc)
  have hdot : '.' ∉ s.deviceChars := by
    rw [h.deviceChars, List.mem_append, not_or]
    exact ⟨h.device.2, fun hd => Digits.ne_dot_of_isDigit (Digits.digits_isDigit _ _ hd) rfl⟩
  have hstar : s.deviceChars ≠ ['*'] := by
    intro hs
    have hlen := congrArg List.length hs
    have hname := List.length_pos_iff.2 (chars_ne_nil h.device.1)
    have hnumber := Digits.digits_length_pos s.number.toNat
    rw [h.deviceChars, List.length_append, List.length_singleton] at hlen
    omega
  have hle : Digits.value ds ≤ UInt32.size - 1 := by
    have hval : Digits.value ds ≤ s.number.toNat := (Digits.value_take_eq_iff h.number_pos _).2.2
    have hlt := s.number.toNat_lt_size
    omega
  have hsplit : splitNumber (Name.cutChars 16 s.deviceChars : BlockName).chars =
      (s.device.chars, s.readNumber) := by
    have hnumbered : Numbered (s.device.chars ++ ds) s.device.chars ds :=
      ⟨rfl, hds, h.deviceEnd⟩
    rw [chars_cutChars_deviceChars h, hnumbered.splitNumber_eq, Digits.nearestWord_of_le hle]
    rfl
  have hnet : s.network.chars.isEmpty = false := by
    simpa using chars_ne_nil h.network
  unfold ofDevicePath ofNetworkPath
  simp only [component_append hdot, if_neg hstar, hsplit, Option.getD_some, hnet,
    Bool.false_eq_true, if_false, Name.cutChars_chars h.short.device,
    Name.cutChars_chars h.short.network]

/-- A path with all components is read back, but for the digits of the number
that do not fit beside the device name. -/
theorem parse_render (h : s.Plain) (fallback : String) :
    parse .signal fallback (s.render .signal) = { s with number := s.readNumber } := by
  unfold parse
  simp only [toList_render h]
  unfold ofSignalPath ofBlockPath
  simp only [component_append h.signal.2.2, component_append h.block.2.2,
    if_neg (chars_ne_star h.signal.2.1), if_neg (chars_ne_star h.block.2.1),
    ofDevicePath_append h, Name.cutChars_chars h.short.signal,
    Name.cutChars_chars h.short.block]

/-- What is read back of the number: all of it if its digits fit beside the
device name, nothing if there is no room for them, and a different number
otherwise. -/
theorem readNumber_eq_iff (h : s.Plain) :
    (s.readNumber = s.number ↔
      s.device.text.utf8ByteSize + (Digits.digits s.number.toNat).length ≤ 15) ∧
      (s.readNumber = 0 ↔ s.device.text.utf8ByteSize = 15) := by
  obtain ⟨hall, hnone, hle⟩ :=
    Digits.value_take_eq_iff h.number_pos (15 - s.device.text.utf8ByteSize)
  have hfits : s.device.text.utf8ByteSize ≤ 15 := h.short.device
  have hlt : Digits.value ((Digits.digits s.number.toNat).take
      (15 - s.device.text.utf8ByteSize)) < UInt32.size := Nat.lt_of_le_of_lt hle s.number.toNat_lt_size
  have hnat : s.readNumber.toNat = Digits.value ((Digits.digits s.number.toNat).take
      (15 - s.device.text.utf8ByteSize)) := UInt32.toNat_ofNat_of_lt' hlt
  rw [← UInt32.toNat_inj, ← UInt32.toNat_inj, hnat, hall]
  refine ⟨by omega, ?_⟩
  rw [UInt32.toNat_zero, hnone]
  omega

end Selector
end SignalRegistry
