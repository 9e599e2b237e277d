/-
# Paths that are written and read again

A component that is unspecified is written as a star, or left out if nothing
follows it (`Selector.join_cons`). So what is read back from a written path are
the components from its level on, however many of them are unspecified. A
signal or block whose name fills its buffer is written whole and read back
without its last character (`Selector.parse_render_exact`).

What is read from any text can be written again (`Selector.writable_parse`): long
names are cut, and so are leading zeros and numbers that are too large. Only a
device whose name is a star is lost when it is read again, and it shows in the
path if no network follows it (`Selector.render_parse_render_iff`).

Key definitions: `Selector.Writable`, `Selector.Readable`, `Selector.shortened`,
`Selector.startingAt`, `Selector.reread`.
Key theorems: `Selector.join_cons`, `Selector.component_join`,
`Selector.parse_render_of_writable`, `Selector.parse_render_exact`,
`Selector.writable_parse`, `Selector.render_parse_render_iff`.
-/
import Mathlib.Data.List.Induction
import SignalRegistry.Proofs.Path
import SignalRegistry.Proofs.Utf8

namespace SignalRegistry

/-! ### Sizes -/

namespace Digits

theorem size_of_isDigit {ds : List Char} (hds : ∀ c ∈ ds, c.isDigit = true) :
    Utf8.size ds = ds.length := by
  induction ds with
  | nil => rfl
  | cons c ds ih =>
    rw [Utf8.size, utf8Size_of_isDigit (hds c List.mem_cons_self),
      ih fun d hd => hds d (List.mem_cons_of_mem c hd), List.length_cons, Nat.add_comm]

theorem digitValue_lt {c : Char} (hc : c.isDigit = true) : digitValue c < 10 := by
  unfold Char.isDigit at hc
  simp only [Bool.and_eq_true, decide_eq_true_eq] at hc
  have hle : c.toNat ≤ 57 := UInt32.le_iff_toNat_le.1 hc.2
  unfold digitValue
  omega

/-- So many digits stand for a number below that power of ten. -/
theorem value_lt_pow {ds : List Char} (hds : ∀ c ∈ ds, c.isDigit = true) :
    value ds < 10 ^ ds.length := by
  induction ds using List.reverseRecOn with
  | nil => exact Nat.one_pos
  | append_singleton ds c ih =>
    have ih := ih fun d hd => hds d (List.mem_append_left _ hd)
    have hc := digitValue_lt (hds c (List.mem_append_right _ (List.mem_singleton_self c)))
    rw [value_append_singleton, List.length_append, List.length_singleton, Nat.pow_succ]
    omega

/-- A number below a power of ten is written with so many digits at most. -/
theorem length_digits_le {n k : Nat} (hn : 0 < n) (hlt : n < 10 ^ k) : (digits n).length ≤ k := by
  have hpow : 10 ^ ((digits n).length - 1) < 10 ^ k := Nat.lt_of_le_of_lt (pow_length_le hn) hlt
  have hk := (Nat.pow_lt_pow_iff_right (by decide)).1 hpow
  omega

end Digits

/-- Only a star is cut to a star, if there is room for another character. -/
theorem fitting_eq_star {room : Nat} (hroom : 5 ≤ room) {cs : List Char}
    (h : fitting room cs = ['*']) : cs = ['*'] := by
  by_contra hne
  have hfull := lt_size_fitting room cs fun he => hne (he.symm.trans h)
  have hstar : Utf8.size ['*'] = 1 := rfl
  rw [h, hstar] at hfull
  omega

/-! ### Components -/

theorem component_of_notMem {part : List Char} (hp : '.' ∉ part) :
    component part = (if part = ['*'] then [] else part, none) := by
  have hne : ∀ c ∈ part, (c != '.') = true := fun c hc => bne_iff_ne.2 fun h => hp (h ▸ hc)
  unfold component
  rw [List.takeWhile_eq_self_iff.2 hne, List.dropWhile_eq_nil_iff.2 hne]
  rfl

/-- A component that was read has no dot and is not a star. -/
theorem component_fst (path : List Char) :
    '.' ∉ (component path).1 ∧ (component path).1 ≠ ['*'] := by
  have hdot : '.' ∉ path.takeWhile (· != '.') := fun hm => by
    have := List.mem_takeWhile_imp hm
    simp at this
  unfold component
  simp only
  split
  · exact ⟨List.not_mem_nil, (List.cons_ne_nil _ _).symm⟩
  · rename_i hne
    exact ⟨hdot, hne⟩

/-- Every text is a name and the digits at its end. -/
theorem exists_numbered (device : List Char) : ∃ name digits, Numbered device name digits := by
  refine ⟨(device.reverse.dropWhile Char.isDigit).reverse,
    (device.reverse.takeWhile Char.isDigit).reverse, ?_, fun c hc => ?_, fun c hc => ?_⟩
  · rw [← List.reverse_append, List.takeWhile_append_dropWhile, List.reverse_reverse]
  · exact List.mem_takeWhile_imp (List.mem_reverse.1 hc)
  · rw [List.getLast?_reverse] at hc
    have hnot := List.head?_dropWhile_not Char.isDigit device.reverse
    rwa [hc] at hnot

/-- The digits of any number are read back behind a name that does not end in one. -/
theorem splitNumber_append_digits {name : List Char}
    (hend : ∀ c, name.getLast? = some c → c.isDigit = false) (number : UInt32) :
    splitNumber (name ++ Digits.digits number.toNat) = (name, number) := by
  have hnumbered : Numbered (name ++ Digits.digits number.toNat) name
      (Digits.digits number.toNat) := ⟨rfl, Digits.digits_isDigit _, hend⟩
  have hlt := number.toNat_lt_size
  rw [hnumbered.splitNumber_eq, Digits.value_digits, Digits.nearestWord_of_le (by omega),
    UInt32.ofNat_toNat]

namespace Selector

/-- A component as it is written before others. -/
def written (part : List Char) : List Char := if part.isEmpty then ['*'] else part

theorem notMem_written {part : List Char} (hp : '.' ∉ part) : '.' ∉ written part := by
  unfold written
  split
  · simp
  · exact hp

/-- A component comes before the others, unless these are all unspecified. -/
theorem join_cons (part : List Char) (rest : List (List Char)) : join (part :: rest) =
    if rest.all List.isEmpty then part else written part ++ '.' :: join rest := by
  have hdrop : (rest.reverse.dropWhile List.isEmpty).isEmpty = rest.all List.isEmpty := by
    rw [Bool.eq_iff_iff, List.isEmpty_iff, List.dropWhile_eq_nil_iff, List.all_eq_true]
    simp only [List.mem_reverse]
  unfold join
  simp only [List.reverse_cons, List.dropWhile_append, hdrop]
  split
  · cases part with
    | nil => rfl
    | cons c cs => simp [List.intercalate]
  · rename_i hne
    rw [← hdrop, List.isEmpty_iff] at hne
    have hused := mt List.reverse_eq_nil_iff.1 hne
    rw [List.reverse_append, List.reverse_singleton, List.singleton_append, List.map_cons]
    generalize (rest.reverse.dropWhile List.isEmpty).reverse = used at hused
    cases used with
    | nil => exact absurd rfl hused
    | cons u us =>
      rw [List.map_cons, List.intercalate_cons_cons, List.append_assoc, List.singleton_append]
      rfl

theorem join_of_all_isEmpty {parts : List (List Char)} (h : parts.all List.isEmpty = true) :
    join parts = [] := by
  cases parts with
  | nil => rfl
  | cons part rest =>
    rw [List.all_cons, Bool.and_eq_true, List.isEmpty_iff] at h
    rw [join_cons, if_pos h.2, h.1]

/-- What is read first from a written path is its first component, unless this is
a star, and then the others. -/
theorem component_join {part : List Char} (hp : '.' ∉ part) (rest : List (List Char)) :
    (component (join (part :: rest))).1 = (if part = ['*'] then [] else part) ∧
      (component (join (part :: rest))).2.getD [] = join rest := by
  rw [join_cons]
  split
  · rename_i hrest
    rw [component_of_notMem hp, join_of_all_isEmpty hrest]
    exact ⟨rfl, rfl⟩
  · rw [component_append (notMem_written hp)]
    refine ⟨?_, rfl⟩
    cases part with
    | nil => rfl
    | cons c cs => rfl

/-- A path that ends early has nothing but unspecified components after its end. -/
theorem ofBlockPath_eq (path : List Char) : ofBlockPath [] path =
    { ofDevicePath [] ((component path).2.getD []) with
      block := .cutChars 16 (component path).1 } := by
  unfold ofBlockPath
  cases h : (component path).2 with
  | none => simp only [h]; rfl
  | some rest => simp only [h]; rfl

theorem ofSignalPath_eq (path : List Char) : ofSignalPath [] path =
    { ofBlockPath [] ((component path).2.getD []) with
      signal := .cutChars 32 (component path).1 } := by
  unfold ofSignalPath
  cases h : (component path).2 with
  | none => simp only [h]; rfl
  | some rest => simp only [h]; rfl

/-! ### What is read back -/

/-- The fields of a selector from a level on. -/
def startingAt (s : Selector) : Level → Selector
  | .signal => s
  | .block => { s with signal := .empty }
  | .device => { s with signal := .empty, block := .empty }
  | .network => { s with signal := .empty, block := .empty, device := .empty, number := 0 }

/-- The components of the selector can be told apart in a path, the device has 15
bytes at most together with its number, and the network has 23 at most. -/
structure Writable (s : Selector) : Prop where
  signal : s.signal.text ≠ "*" ∧ '.' ∉ s.signal.chars
  block : s.block.text ≠ "*" ∧ '.' ∉ s.block.chars
  device : '.' ∉ s.device.chars
  deviceEnd : ∀ c, s.device.chars.getLast? = some c → c.isDigit = false
  room : (String.ofList s.deviceChars).utf8ByteSize ≤ 15
  network : s.network.text.utf8ByteSize ≤ 23

/-- The device is not written as a star either. -/
structure Readable (s : Selector) : Prop extends s.Writable where
  star : s.number = 0 → s.device.text ≠ "*"

/-- A device that is written as a star is unspecified when it is read. -/
def reread (s : Selector) : Selector :=
  if s.device.text = "*" ∧ s.number = 0 then { s with device := .empty } else s

/-- The names of the signal and the block are cut to size when they are read. -/
def shortened (s : Selector) : Selector :=
  { s with signal := .cut 32 s.signal.text, block := .cut 16 s.block.text }

variable {s : Selector}

theorem chars_eq_star_iff {capacity : Nat} (n : Name capacity) : n.chars = ['*'] ↔ n.text = "*" :=
  ⟨fun h => by rw [← String.ofList_toList (s := n.text)]; exact congrArg String.ofList h,
    fun h => congrArg String.toList h⟩

theorem chars_eq_nil_iff {capacity : Nat} (n : Name capacity) : n.chars = [] ↔ n = .empty := by
  refine ⟨fun h => Name.ext ?_, fun h => by rw [h]; rfl⟩
  rw [← String.ofList_toList (s := n.text)]
  exact congrArg String.ofList h

/-- A device is written as a star if that is its name and it has no number. -/
theorem deviceChars_eq_star_iff (s : Selector) :
    s.deviceChars = ['*'] ↔ s.device.text = "*" ∧ s.number = 0 := by
  unfold deviceChars
  by_cases hnumber : s.number = 0
  · rw [if_pos hnumber, List.append_nil, chars_eq_star_iff, and_iff_left hnumber]
  · rw [if_neg hnumber]
    refine iff_of_false (fun h => ?_) fun h => hnumber h.2
    -- The last character would be a digit.
    have hstar : '*' ∈ Digits.digits s.number.toNat := by
      have hlast := congrArg List.getLast? h
      rw [List.getLast?_append_of_ne_nil _ (Digits.digits_ne_nil _)] at hlast
      exact List.mem_of_getLast? hlast
    exact absurd (Digits.digits_isDigit _ _ hstar) (by decide)

theorem notMem_deviceChars (hd : '.' ∉ s.device.chars) : '.' ∉ s.deviceChars := by
  unfold deviceChars
  rw [List.mem_append, not_or]
  refine ⟨hd, fun hm => ?_⟩
  split at hm
  · cases hm
  · exact Digits.ne_dot_of_isDigit (Digits.digits_isDigit _ _ hm) rfl

/-- The device and its number are read back from the component that they write. -/
theorem splitNumber_deviceChars
    (hend : ∀ c, s.device.chars.getLast? = some c → c.isDigit = false) :
    splitNumber s.deviceChars = (s.device.chars, s.number) := by
  unfold deviceChars
  split
  · rename_i hnumber
    have hnumbered : Numbered (s.device.chars ++ []) s.device.chars [] :=
      ⟨rfl, fun c hc => absurd hc List.not_mem_nil, hend⟩
    rw [hnumbered.splitNumber_eq, hnumber]
    rfl
  · exact splitNumber_append_digits hend s.number

theorem ofNetworkPath_chars (h : s.network.IsShort) :
    ofNetworkPath [] s.network.chars = s.startingAt .network := by
  unfold ofNetworkPath startingAt
  congr 1
  split
  · rename_i hempty
    rw [(chars_eq_nil_iff _).1 (List.isEmpty_iff.1 hempty)]
    rfl
  · exact Name.cutChars_chars h

theorem size_deviceChars_le (h : s.Writable) : Utf8.size s.deviceChars ≤ 15 := by
  rw [← utf8ByteSize_ofList]
  exact h.room

/-- A device that fits together with its number fits without it. -/
theorem Writable.isShort_device (h : s.Writable) : s.device.IsShort := by
  have hsize := size_deviceChars_le h
  rw [deviceChars, Utf8.size_append, ← Name.utf8ByteSize_text] at hsize
  exact Nat.le_trans (Nat.le_add_right _ _) hsize

theorem join_singleton (part : List Char) : join [part] = part := by
  rw [join_cons, List.all_nil, if_pos rfl]

theorem ofDevicePath_join (h : s.Writable) :
    ofDevicePath [] (join [s.deviceChars, s.network.chars]) = s.reread.startingAt .device := by
  obtain ⟨hpart, hrest⟩ := component_join (notMem_deviceChars h.device) [s.network.chars]
  rw [join_singleton] at hrest
  unfold ofDevicePath
  simp only [hpart, hrest, ofNetworkPath_chars h.network, deviceChars_eq_star_iff,
    Name.chars_cutChars]
  unfold reread
  split
  · rename_i hstar
    simp only [startingAt, hstar.2]
    rfl
  · rw [fitting_eq_self _ _ (size_deviceChars_le h), splitNumber_deviceChars h.deviceEnd]
    simp only [startingAt, Name.cutChars_chars h.isShort_device]

theorem reread_block (s : Selector) : s.reread.block = s.block := by
  unfold reread
  split <;> rfl

theorem reread_signal (s : Selector) : s.reread.signal = s.signal := by
  unfold reread
  split <;> rfl

theorem ofBlockPath_join (h : s.Writable) :
    ofBlockPath [] (join [s.block.chars, s.deviceChars, s.network.chars]) =
      s.reread.shortened.startingAt .block := by
  obtain ⟨hpart, hrest⟩ := component_join h.block.2 [s.deviceChars, s.network.chars]
  rw [ofBlockPath_eq, hpart, hrest, if_neg ((chars_eq_star_iff _).not.2 h.block.1),
    ofDevicePath_join h, ← s.reread_block]
  rfl

theorem ofSignalPath_join (h : s.Writable) :
    ofSignalPath [] (join s.components) = s.reread.shortened.startingAt .signal := by
  obtain ⟨hpart, hrest⟩ :=
    component_join h.signal.2 [s.block.chars, s.deviceChars, s.network.chars]
  unfold components
  rw [ofSignalPath_eq, hpart, hrest, if_neg ((chars_eq_star_iff _).not.2 h.signal.1),
    ofBlockPath_join h, ← s.reread_signal]
  rfl

theorem startingAt_network_reread (s : Selector) :
    s.reread.startingAt .network = s.startingAt .network := by
  unfold reread
  split <;> rfl

/-- What is read back from a written path are the components from its level on,
cut to size, but for a device that is written as a star. -/
theorem parse_render_of_writable (h : s.Writable) (level : Level) :
    parse level "" (s.render level) = s.reread.shortened.startingAt level := by
  unfold parse render
  simp only [String.toList_ofList]
  cases level with
  | signal => exact ofSignalPath_join h
  | block => exact ofBlockPath_join h
  | device => exact ofDevicePath_join h
  | network =>
    show ofNetworkPath [] (join [s.network.chars]) = _
    rw [join_singleton, ofNetworkPath_chars h.network]
    exact (startingAt_network_reread s).symm

theorem Readable.reread_eq (h : s.Readable) : s.reread = s :=
  if_neg fun hstar => h.star hstar.2 hstar.1

theorem shortened_eq_iff (s : Selector) : s.shortened = s ↔ s.signal.IsShort ∧ s.block.IsShort := by
  refine ⟨fun h => ?_, fun h => ?_⟩
  · rw [← h]
    exact ⟨Name.isShort_cut _, Name.isShort_cut _⟩
  · unfold shortened
    rw [Name.cut_text h.1, Name.cut_text h.2]

/-- Cutting a name changes what starts at a level only if the name is among it. -/
theorem shortened_startingAt_eq_iff (s : Selector) (level : Level) :
    s.shortened.startingAt level = s.startingAt level ↔
      (level = .signal → s.signal.IsShort) ∧
        (level = .signal ∨ level = .block → s.block.IsShort) := by
  cases level with
  | signal => simpa [startingAt] using shortened_eq_iff s
  | block =>
    have hsignal : ({ s with signal := .empty } : Selector).signal.IsShort := Name.isShort_empty
    have hiff := (shortened_eq_iff { s with signal := .empty }).trans (and_iff_right hsignal)
    have hcut : s.shortened.startingAt .block = shortened { s with signal := .empty } := by
      unfold shortened
      rw [Name.cut_text hsignal]
      rfl
    rw [hcut]
    simpa [startingAt] using hiff
  | device => simp [startingAt, shortened]
  | network => simp [startingAt, shortened]

/-- **A path is read back with the names of its signal and block cut to size.** So it is
read back as it was written exactly if the signal, where the path has one, has 31
bytes at most, and the block, where it has one, 15. -/
theorem parse_render_exact (h : s.Readable) (level : Level) :
    parse level "" (s.render level) = s.shortened.startingAt level ∧
      (parse level "" (s.render level) = s.startingAt level ↔
        (level = .signal → s.signal.text.utf8ByteSize ≤ 31) ∧
          (level = .signal ∨ level = .block → s.block.text.utf8ByteSize ≤ 15)) := by
  have hread : parse level "" (s.render level) = s.shortened.startingAt level := by
    rw [parse_render_of_writable h.toWritable, h.reread_eq]
  refine ⟨hread, ?_⟩
  rw [hread]
  exact shortened_startingAt_eq_iff s level

/-- A signal in no block, in a network with a dot in its name. -/
def led : Selector := .ofNames "led" "" "gina" 3 "cafe.net"

theorem parse_render_led : led.Readable ∧ led.render .signal = "led.*.gina3.cafe.net" ∧
    parse .signal "" (led.render .signal) = led.startingAt .signal := by
  have hreadable : led.Readable :=
    { signal := by decide
      block := by decide
      device := by decide
      deviceEnd := fun c hc => by
        have hlast : led.device.chars.getLast? = some 'a' := by decide
        rw [hlast, Option.some_inj] at hc
        exact hc ▸ rfl
      room := by decide +kernel
      network := by decide
      star := by decide }
  have hsignal : led.signal.text.utf8ByteSize ≤ 31 := by decide
  have hblock : led.block.text.utf8ByteSize ≤ 15 := by decide
  exact ⟨hreadable, by decide +kernel,
    (parse_render_exact hreadable .signal).2.2 ⟨fun _ => hsignal, fun _ => hblock⟩⟩

/-- A signal whose name fills its buffer. -/
def longest : Selector := { signal := .truncate 32 "abcdefghijklmnopqrstuvwxyzabcdef" }

/-- Not every path is read back: the last letter of a name of 32 is lost. -/
theorem last_letter_lost : ¬ ∀ (level : Level) (s : Selector), s.Readable →
    parse level "" (s.render level) = s.startingAt level := by
  intro h
  have hreadable : longest.Readable :=
    { signal := by decide
      block := by decide
      device := by decide
      deviceEnd := fun c hc => by cases hc
      room := by decide
      network := by decide
      star := fun _ => by decide }
  have hread := h .signal longest hreadable
  rw [parse_render_of_writable hreadable.toWritable, hreadable.reread_eq] at hread
  have hshort := ((shortened_startingAt_eq_iff longest .signal).1 hread).1 rfl
  exact absurd hshort (by decide)

/-! ### What was read -/

theorem text_cutChars_ne_star {capacity : Nat} (hc : 6 ≤ capacity) {cs : List Char}
    (h : cs ≠ ['*']) : (Name.cutChars capacity cs).text ≠ "*" := by
  rw [ne_eq, ← chars_eq_star_iff, Name.chars_cutChars]
  exact fun hstar => h (fitting_eq_star (by omega) hstar)

theorem notMem_chars_cutChars {capacity : Nat} {cs : List Char} (h : '.' ∉ cs) :
    '.' ∉ (Name.cutChars capacity cs).chars := by
  rw [Name.chars_cutChars]
  exact fun hm => h ((fitting_isPrefix _ cs).subset hm)

theorem unspecified (capacity : Nat) : (Name.empty : Name capacity).text ≠ "*" ∧
    '.' ∉ (Name.empty : Name capacity).chars :=
  ⟨show "" ≠ "*" by decide, List.not_mem_nil⟩

theorem writable_ofNetworkPath (path : List Char) : (ofNetworkPath [] path).Writable where
  signal := unspecified 32
  block := unspecified 16
  device := List.not_mem_nil
  deviceEnd c hc := by cases hc
  room := show (String.ofList []).utf8ByteSize ≤ 15 by decide
  network := Name.isShort_cutChars _

/-- The number that is read needs no more digits than were read. -/
theorem length_digits_nearestWord_le {ds : List Char} (hds : ∀ c ∈ ds, c.isDigit = true)
    (hne : Digits.nearestWord (Digits.value ds) ≠ 0) :
    (Digits.digits (Digits.nearestWord (Digits.value ds)).toNat).length ≤ ds.length := by
  have hpos : 0 < (Digits.nearestWord (Digits.value ds)).toNat :=
    Nat.pos_of_ne_zero fun h0 => hne (UInt32.toNat_inj.1 h0)
  refine Digits.length_digits_le hpos ?_
  rw [Digits.toNat_nearestWord]
  exact Nat.lt_of_le_of_lt (Nat.min_le_left _ _) (Digits.value_lt_pow hds)

theorem writable_ofDevicePath (path : List Char) : (ofDevicePath [] path).Writable := by
  have hdot := (component_fst path).1
  obtain ⟨name, ds, hnumbered⟩ := exists_numbered (fitting 15 (component path).1)
  have hpart := hnumbered.parts
  have hsize := size_fitting_le 15 (component path).1
  rw [hpart, Utf8.size_append, Digits.size_of_isDigit hnumbered.isDigit] at hsize
  have hname : (Name.cutChars 16 name).chars = name := by
    rw [Name.chars_cutChars, fitting_eq_self _ _ (by omega)]
  have hprefix : '.' ∉ name := fun hm =>
    hdot ((fitting_isPrefix _ _).subset (hpart ▸ List.mem_append_left _ hm))
  unfold ofDevicePath
  simp only [Name.chars_cutChars, Nat.reduceSub, hnumbered.splitNumber_eq]
  refine ⟨unspecified 32, unspecified 16, ?_, ?_, ?_, Name.isShort_cutChars _⟩
  · simp only [hname]
    exact hprefix
  · simp only [hname]
    exact hnumbered.nameEnd
  · rw [utf8ByteSize_ofList]
    unfold deviceChars
    simp only [hname]
    split
    · rw [List.append_nil]
      omega
    · rename_i hne
      have hlen := length_digits_nearestWord_le hnumbered.isDigit hne
      rw [Utf8.size_append, Digits.size_of_isDigit (Digits.digits_isDigit _)]
      omega

theorem writable_ofBlockPath (path : List Char) : (ofBlockPath [] path).Writable := by
  obtain ⟨hdot, hstar⟩ := component_fst path
  have habove := writable_ofDevicePath ((component path).2.getD [])
  rw [ofBlockPath_eq]
  exact ⟨habove.signal, ⟨text_cutChars_ne_star (by decide) hstar, notMem_chars_cutChars hdot⟩,
    habove.device, habove.deviceEnd, habove.room, habove.network⟩

theorem writable_ofSignalPath (path : List Char) : (ofSignalPath [] path).Writable := by
  obtain ⟨hdot, hstar⟩ := component_fst path
  have habove := writable_ofBlockPath ((component path).2.getD [])
  rw [ofSignalPath_eq]
  exact ⟨⟨text_cutChars_ne_star (by decide) hstar, notMem_chars_cutChars hdot⟩, habove.block,
    habove.device, habove.deviceEnd, habove.room, habove.network⟩

/-- Whatever is read from a text can be written. -/
theorem writable_parse (level : Level) (path : String) : (parse level "" path).Writable := by
  cases level with
  | signal => exact writable_ofSignalPath _
  | block => exact writable_ofBlockPath _
  | device => exact writable_ofDevicePath _
  | network => exact writable_ofNetworkPath _

theorem isShort_ofNetworkPath (path : List Char) : (ofNetworkPath [] path).IsShort :=
  ⟨Name.isShort_empty, Name.isShort_empty, Name.isShort_empty, Name.isShort_cutChars _⟩

theorem isShort_ofDevicePath (path : List Char) : (ofDevicePath [] path).IsShort := by
  unfold ofDevicePath
  generalize component path = parts
  simp only
  generalize splitNumber _ = device
  exact { isShort_ofNetworkPath (parts.2.getD []) with
    device := Name.isShort_cutChars device.1 }

theorem isShort_ofBlockPath (path : List Char) : (ofBlockPath [] path).IsShort := by
  obtain ⟨hsignal, -, hdevice, hnetwork⟩ := isShort_ofDevicePath ((component path).2.getD [])
  rw [ofBlockPath_eq]
  exact ⟨hsignal, Name.isShort_cutChars (component path).1, hdevice, hnetwork⟩

theorem isShort_ofSignalPath (path : List Char) : (ofSignalPath [] path).IsShort := by
  obtain ⟨-, hblock, hdevice, hnetwork⟩ := isShort_ofBlockPath ((component path).2.getD [])
  rw [ofSignalPath_eq]
  exact ⟨Name.isShort_cutChars (component path).1, hblock, hdevice, hnetwork⟩

/-- The names that are read are short. -/
theorem isShort_parse (level : Level) (path : String) : (parse level "" path).IsShort := by
  cases level with
  | signal => exact isShort_ofSignalPath _
  | block => exact isShort_ofBlockPath _
  | device => exact isShort_ofDevicePath _
  | network => exact isShort_ofNetworkPath _

/-- What was read is not cut when it is read again. -/
theorem shortened_reread_parse (level : Level) (path : String) :
    (parse level "" path).reread.shortened = (parse level "" path).reread := by
  have hshort := isShort_parse level path
  rw [shortened_eq_iff, reread_signal, reread_block]
  exact ⟨hshort.signal, hshort.block⟩

/-- What lies below the level of a path is not written. -/
theorem render_startingAt (level : Level) (s : Selector) :
    (s.startingAt level).render level = s.render level := by
  cases level <;> rfl

/-! ### A device that is written as a star -/

/-- Before a network, an unspecified component is written like a star. -/
theorem join_star_of_ne_nil (parts : List (List Char)) {network : List Char} (hn : network ≠ []) :
    join (parts ++ [['*'], network]) = join (parts ++ [[], network]) := by
  have hspecified : network.isEmpty = false := by simpa using hn
  induction parts with
  | nil => simp [join_cons, hspecified, written]
  | cons part parts ih => simp [join_cons, hspecified, ih]

/-- At the end of a path, a star is written and an unspecified component is not. -/
theorem length_join_lt (parts : List (List Char)) :
    (join (parts ++ [[], []])).length < (join (parts ++ [['*'], []])).length := by
  induction parts with
  | nil => decide
  | cons part parts ih =>
    rw [List.cons_append, List.cons_append, join_cons, join_cons]
    have hstar : (parts ++ [['*'], []]).all List.isEmpty = false := by simp
    rw [hstar, if_neg Bool.false_ne_true, List.length_append, List.length_cons]
    have hwritten : part.length ≤ (written part).length := by
      unfold written
      split
      · rename_i hempty
        simp [List.isEmpty_iff.1 hempty]
      · exact Nat.le_refl _
    split
    · omega
    · rw [List.length_append, List.length_cons]
      omega

/-- A device that is a star shows in a path only at its end. -/
theorem render_reread_iff {level : Level} (hlevel : level ≠ .network) (s : Selector) :
    s.reread.render level = s.render level ↔
      ¬ (s.device.text = "*" ∧ s.number = 0 ∧ s.network.text = "") := by
  unfold reread
  split
  · rename_i hstar
    have hchars := (deviceChars_eq_star_iff s).2 hstar
    let t : Selector := { s with device := .empty }
    have hnone : t.deviceChars = [] := by
      unfold deviceChars
      rw [if_pos hstar.2]
      rfl
    obtain ⟨parts, hs, ht⟩ : ∃ parts,
        s.components.drop level.depth = parts ++ [s.deviceChars, s.network.chars] ∧
          t.components.drop level.depth = parts ++ [t.deviceChars, s.network.chars] := by
      cases level with
      | signal => exact ⟨[s.signal.chars, s.block.chars], rfl, rfl⟩
      | block => exact ⟨[s.block.chars], rfl, rfl⟩
      | device => exact ⟨[], rfl, rfl⟩
      | network => exact absurd rfl hlevel
    show t.render level = s.render level ↔ _
    unfold render
    rw [hs, ht, hchars, hnone, String.ofList_inj]
    by_cases hnetwork : s.network.text = ""
    · have hempty : s.network.chars = [] := congrArg String.toList hnetwork
      rw [hempty]
      refine iff_of_false (fun h => ?_) fun h => h ⟨hstar.1, hstar.2, hnetwork⟩
      exact absurd (congrArg List.length h) (Nat.ne_of_lt (length_join_lt parts))
    · refine iff_of_true ?_ fun h => hnetwork h.2.2
      exact (join_star_of_ne_nil parts (chars_ne_nil hnetwork)).symm
  · rename_i hplain
    exact iff_of_true rfl fun h => hplain ⟨h.1, h.2.1⟩

/-- **A path that was read and written stays so.** What is read from a text and
written is read and written alike again, unless the device that was read is a star
without a number at the end of the path. -/
theorem render_parse_render_iff (level : Level) (path : String) :
    (parse level "" ((parse level "" path).render level)).render level =
        (parse level "" path).render level ↔
      ¬ ((parse level "" path).device.text = "*" ∧ (parse level "" path).number = 0 ∧
        (parse level "" path).network.text = "") := by
  rw [parse_render_of_writable (writable_parse level path), render_startingAt,
    shortened_reread_parse]
  by_cases hlevel : level = .network
  · subst hlevel
    have hreread : (parse .network "" path).reread = parse .network "" path :=
      if_neg fun h => absurd h.1 (unspecified 16).1
    rw [hreread]
    exact iff_of_true rfl fun h => (unspecified 16).1 h.1
  · exact render_reread_iff hlevel _

/-- A device component that is a star with a zero is read as a device that is a
star, and its path as no device at all. -/
theorem star_read_away : ¬ ∀ (level : Level) (path : String),
    (parse level "" ((parse level "" path).render level)).render level =
      (parse level "" path).render level := by
  intro h
  have hstar := h .device "*0"
  revert hstar
  decide

end Selector
end SignalRegistry
