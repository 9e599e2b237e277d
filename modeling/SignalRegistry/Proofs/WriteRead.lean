/-
# What is written is read back

A write replaces the bytes of its signal and no others
(`Block.getElem?_writeSignal`), and what is read afterwards is made of them
(`Block.read_of_write`). A value that has a single element for each of the
signal's is read back converted to the type of the signal
(`Block.recalled_of_write`). Only `unavailable` is not: it clears the state byte
and leaves the value bytes as they are.

Texts are cut to the bytes of their signal, so they are left out here.

Key definitions: `Value.Supplies`.
Key theorems: `Block.getElem?_writeSignal`, `Block.read_of_write`,
`Block.recalled_of_write`.
-/
import SignalRegistry.Proofs.Access

namespace SignalRegistry

namespace Value

/-- What a signal of `n` elements takes from a value: the value itself or the first
item of an array if it is a single element, or the first items of an array with at
least as many. -/
inductive Supplies (n : Nat) : Value → Value → Prop
  | scalar {v : Value} : n ≤ 1 → v.IsScalar → Supplies n v v
  | first {v : Value} {vs : List Value} : n ≤ 1 → v.IsScalar → Supplies n (array (v :: vs)) v
  | elements {vs : List Value} : 1 < n → n ≤ vs.length → (∀ v ∈ vs.take n, v.IsScalar) →
      Supplies n (array vs) (array (vs.take n))

theorem Supplies.isAvailable {n : Nat} {v taken : Value} (h : Supplies n v taken) :
    v.isAvailable = true := by
  cases h with
  | scalar hn hv =>
    cases v with
    | unavailable => exact absurd rfl hv.1
    | _ => rfl
  | first | elements => rfl

/-- An element that is a boolean is on if its integer view is not 0. -/
theorem convert_boolean {v : Value} (hv : v.IsScalar) :
    v.convert .boolean = boolean ((v.convert .boolean).toInt64 != 0) := by
  rw [convert_of_isScalar _ hv, convertScalar]
  cases v.toInt64 != 0 || !v.toDouble.isZero <;> rfl

end Value

theorem or_and_self (s b : UInt8) : (s ||| b) &&& b = b := by
  apply UInt8.toBitVec_inj.1
  rw [UInt8.toBitVec_and, UInt8.toBitVec_or]
  ext i hi
  rw [BitVec.getElem_and, BitVec.getElem_or]
  cases s.toBitVec[i] <;> cases b.toBitVec[i] <;> rfl

theorem or_and_not (s b : UInt8) : (s ||| b) &&& ~~~b = s &&& ~~~b := by
  apply UInt8.toBitVec_inj.1
  rw [UInt8.toBitVec_and, UInt8.toBitVec_or, UInt8.toBitVec_not, UInt8.toBitVec_and,
    UInt8.toBitVec_not]
  ext i hi
  rw [BitVec.getElem_and, BitVec.getElem_or, BitVec.getElem_not, BitVec.getElem_and,
    BitVec.getElem_not]
  cases s.toBitVec[i] <;> cases b.toBitVec[i] <;> rfl

namespace Block

/-! ### The bytes of a signal after a write -/

theorem getElem?_overwrite {bytes data : Octets} {address : Nat}
    (h : address + data.length ≤ bytes.length) (i : Nat) :
    (overwrite bytes address data)[i]? =
      if i < address ∨ address + data.length ≤ i then bytes[i]? else data[i - address]? := by
  have hbefore : (bytes.take address).length = address := List.length_take_of_le (by omega)
  unfold overwrite
  by_cases hlow : i < address
  · rw [if_pos (Or.inl hlow), List.append_assoc, List.getElem?_append_left (by omega),
      List.getElem?_take_of_lt hlow]
  by_cases hhigh : address + data.length ≤ i
  · rw [if_pos (Or.inr hhigh), List.getElem?_append_right (by rw [List.length_append]; omega),
      List.getElem?_drop, List.length_append, hbefore]
    congr 1
    omega
  · rw [if_neg (not_or.2 ⟨hlow, hhigh⟩), List.append_assoc,
      List.getElem?_append_right (by omega), hbefore, List.getElem?_append_left (by omega)]

variable {m m' : Block} {address n : Nat} {type : ElementType} {value : Value} {state : UInt8}

/-- The bytes of a signal are those that were put in their place. -/
theorem signalBytes?_overwrite {data : Octets} (hdata : data.length = type.extent n)
    (h : (m.signalBytes? address n type).isSome = true) :
    signalBytes? ⟨m.identity, overwrite m.bytes address data⟩ address n type = some data := by
  obtain ⟨hlimit, hstop⟩ := (signalBytes?_isSome_iff m address n type).1 h
  have hrange : address + data.length ≤ m.bytes.length := by
    rw [hdata]
    exact hstop
  have hbefore : (m.bytes.take address).length = address := List.length_take_of_le (by omega)
  have hsize : size ⟨m.identity, overwrite m.bytes address data⟩ = m.size :=
    length_overwrite hrange
  unfold signalBytes?
  simp only [hsize]
  rw [if_pos ⟨hlimit, hstop⟩]
  unfold readBytes overwrite
  rw [List.append_assoc, List.drop_left' hbefore, List.take_left' hdata]

theorem getElem?_of_signalBytes? {bytes : Octets} (h : m.signalBytes? address n type = some bytes)
    {k : Nat} (hk : k < bytes.length) : m.bytes[address + k]? = bytes[k]? := by
  unfold signalBytes? at h
  simp only at h
  split at h
  · obtain rfl := Option.some.inj h
    unfold readBytes at hk ⊢
    rw [List.length_take] at hk
    rw [List.getElem?_take_of_lt (by omega), List.getElem?_drop]
  · cases h

/-- The state byte and the value bytes that a write leaves in a signal. -/
def written (type : ElementType) (n : Nat) (value : Value) (state : UInt8) (body : Octets) :
    UInt8 × Octets :=
  if value.isAvailable then
    encodeBody type n (value.convert type) (state &&& ~~~booleanBit) body
  else (0, body)

theorem length_written (type : ElementType) (n : Nat) (value : Value) (state : UInt8)
    (body : Octets) : (written type n value state body).2.length = body.length := by
  unfold written
  split
  · exact length_encodeBody _ _ _ _ _
  · rfl

/-- A write that succeeds puts a new state byte and as many value bytes in the place
of those of the signal. -/
theorem exists_written (h : m.writeSignal address n type value state = .ok m') :
    ∃ old body, m.signalBytes? address n type = some (old :: body) ∧
      body.length + 1 = type.extent n ∧
      m' = ⟨m.identity, overwrite m.bytes address
        ((written type n value state body).1 :: (written type n value state body).2)⟩ := by
  unfold writeSignal at h
  cases hbytes : m.signalBytes? address n type with
  | none =>
    rw [hbytes] at h
    cases h
  | some bytes =>
    obtain ⟨old, body, rfl, hbody⟩ := exists_cons_of_signalBytes? hbytes
    rw [hbytes] at h
    exact ⟨old, body, rfl, hbody, (Except.ok.inj h).symm⟩

/-- The signal of a write that succeeds is in the block. -/
theorem exists_of_writeSignal (hsize : m.size < sizeLimit)
    (h : m.writeSignal address n type value state = .ok m') :
    ∃ old body, m.signalBytes? address n type = some (old :: body) ∧
      body.length + 1 = type.exactExtent n ∧ address + type.exactExtent n ≤ m.size ∧
      m' = ⟨m.identity, overwrite m.bytes address
        ((written type n value state body).1 :: (written type n value state body).2)⟩ := by
  obtain ⟨old, body, hbytes, hbody, hchanged⟩ := exists_written h
  have hstop := ((signalBytes?_isSome_iff m address n type).1 (by rw [hbytes]; rfl)).2
  rw [ElementType.extent_eq_exactExtent (show type.extent n < sizeLimit by omega)] at hbody hstop
  exact ⟨old, body, hbytes, hbody, hstop, hchanged⟩

/-- A write changes the bytes of its signal only. -/
theorem getElem?_writeSignal (hsize : m.size < sizeLimit)
    (h : m.writeSignal address n type value state = .ok m') {i : Nat}
    (hi : i < address ∨ address + type.exactExtent n ≤ i) : m'.bytes[i]? = m.bytes[i]? := by
  obtain ⟨old, body, -, hbody, hstop, rfl⟩ := exists_of_writeSignal hsize h
  have hlength : ((written type n value state body).1 ::
      (written type n value state body).2).length = type.exactExtent n := by
    rw [List.length_cons, length_written, hbody]
  rw [getElem?_overwrite (by rw [hlength]; exact hstop), hlength, if_pos hi]

/-- What is read after a write is what it left in the signal. -/
theorem read_of_write (hsize : m.size < sizeLimit)
    (h : m.writeSignal address n type value state = .ok m') :
    ∃ body, body.length + 1 = type.exactExtent n ∧ m'.readSignal address n type =
      ⟨(written type n value state body).1 &&& ~~~booleanBit,
        decodeBody type n (written type n value state body).1
          (written type n value state body).2⟩ := by
  obtain ⟨old, body, hbytes, hbody, -, rfl⟩ := exists_of_writeSignal hsize h
  have hsome : (m.signalBytes? address n type).isSome = true := by
    rw [hbytes]
    rfl
  obtain ⟨_, _, hcons, hextent⟩ := exists_cons_of_signalBytes? hbytes
  have hlength : ((written type n value state body).1 ::
      (written type n value state body).2).length = type.extent n := by
    rw [List.length_cons, length_written, ← hextent, (List.cons.inj hcons).2]
  refine ⟨body, hbody, ?_⟩
  unfold readSignal
  rw [signalBytes?_overwrite hlength hsome]

/-- What cannot be reached clears the state byte, and nothing else. -/
theorem writeSignal_unavailable (hsize : m.size < sizeLimit)
    (h : m.writeSignal address n type .unavailable state = .ok m') :
    address < m.size ∧ m' = { m with bytes := m.bytes.set address 0 } := by
  obtain ⟨old, body, hbytes, hbody, hstop, rfl⟩ := exists_of_writeSignal hsize h
  have hrange : address + (0 :: body : Octets).length ≤ m.bytes.length := by
    rw [List.length_cons, hbody]
    exact hstop
  have haddress : address < m.bytes.length := by
    rw [List.length_cons] at hrange
    omega
  refine ⟨haddress, congrArg (Block.mk m.identity) (List.ext_getElem? fun i => ?_)⟩
  show (overwrite m.bytes address (0 :: body))[i]? = (m.bytes.set address 0)[i]?
  rw [getElem?_overwrite hrange]
  by_cases hi : i < address ∨ address + (0 :: body : Octets).length ≤ i
  · rw [if_pos hi]
    rw [List.length_cons] at hi
    rw [List.getElem?_set_ne (by omega)]
  · obtain ⟨k, rfl⟩ : ∃ k, i = address + k := ⟨i - address, by omega⟩
    rw [if_neg hi, Nat.add_sub_cancel_left]
    cases k with
    | zero => rw [Nat.add_zero, List.getElem?_set_self haddress, List.getElem?_cons_zero]
    | succ k =>
      rw [List.length_cons] at hi
      rw [List.getElem?_set_ne (by omega), List.getElem?_cons_succ,
        getElem?_of_signalBytes? hbytes (by rw [List.length_cons]; omega), List.getElem?_cons_succ]

/-! ### The value that is read back -/

/-- The state that is read back has no trace of the value in it. -/
theorem state_of_written (hv : value.isAvailable = true) (body : Octets) :
    (written type n value state body).1 &&& ~~~booleanBit = state &&& ~~~booleanBit := by
  have hclear : state &&& ~~~booleanBit &&& ~~~booleanBit = state &&& ~~~booleanBit := by
    rw [UInt8.and_assoc, UInt8.and_self]
  unfold written
  rw [if_pos hv]
  by_cases htype : type.IsNumeric
  · rw [encodeBody_of_isNumeric htype, hclear]
  cases type with
  | boolean =>
    unfold encodeBody
    simp only
    split
    · split
      · rw [or_and_not, hclear]
      · exact hclear
    · exact hclear
  | str =>
    unfold encodeBody
    simp only
    split <;> exact hclear
  | _ => exact absurd ⟨ElementType.noConfusion, ElementType.noConfusion⟩ htype

/-- A single element is read back, converted to the type. -/
theorem decode_of_head (htype : type ≠ .str) (hn : n ≤ 1) {v : Value} (hv : v.IsScalar)
    (hvalue : value.isAvailable = true) (hhead : value.items.head? = some v) {body : Octets}
    (hbody : body.length + 1 = type.exactExtent n) :
    decodeBody type n (written type n value state body).1 (written type n value state body).2 =
      v.convert type := by
  obtain ⟨vs, hitems⟩ : ∃ vs, value.items = v :: vs := by
    cases h : value.items with
    | nil =>
      rw [h] at hhead
      cases hhead
    | cons w ws =>
      rw [h] at hhead
      exact ⟨ws, congrArg (· :: ws) (Option.some.inj hhead)⟩
  have hconverted : (value.convert type).items = (v :: vs).map (Value.convert type) := by
    rw [Value.items_convert htype, hitems]
  unfold written
  rw [if_pos hvalue]
  by_cases hboolean : type = .boolean
  · subst hboolean
    unfold encodeBody decodeBody
    simp only
    rw [if_pos hn, if_pos hn, hconverted, List.map_cons, List.head?_cons, Option.map_some,
      Option.getD_some]
    refine Eq.trans (congrArg Value.boolean ?_) (v.convert_boolean hv).symm
    cases (v.convert .boolean).toInt64 != 0 with
    | true =>
      rw [if_pos rfl, or_and_self]
      rfl
    | false =>
      rw [if_neg Bool.false_ne_true, UInt8.and_assoc, UInt8.not_and_self, UInt8.and_zero]
      rfl
  · have hnumeric : type.IsNumeric := ⟨hboolean, htype⟩
    rw [encodeBody_of_isNumeric hnumeric, decodeBody_of_isNumeric hnumeric, if_pos hn, hconverted]
    rw [ElementType.exactExtent_of_isNumeric hnumeric, Nat.max_eq_right hn, Nat.one_mul] at hbody
    have hfirst : ∀ w ∈ (v :: vs).take 1, w.IsScalar := by
      intro w hw
      rw [List.take_succ_cons, List.take_zero, List.mem_singleton] at hw
      rw [hw]
      exact hv
    have hmany := ElementType.decodeMany_encodeOver hnumeric (Nat.succ_pos vs.length)
      (show 1 * type.size ≤ body.length by omega) hfirst
    have hall : ∀ bytes : Octets, bytes.length = type.size →
        type.decodeMany 1 bytes = [type.decode bytes] := by
      intro bytes hbytes
      rw [ElementType.decodeMany, ElementType.decodeMany, ← hbytes, List.take_length]
    rw [hall _ (by rw [Value.length_encodeOver]; omega)] at hmany
    exact (List.cons.inj hmany).1

/-- The elements of an array are read back, converted to the type. -/
theorem decode_of_elements (htype : type ≠ .str) (hn : 1 < n) {vs : List Value}
    (hlength : n ≤ vs.length) (hvs : ∀ v ∈ vs.take n, v.IsScalar) {body : Octets}
    (hbody : body.length + 1 = type.exactExtent n) :
    decodeBody type n (written type n (.array vs) state body).1
      (written type n (.array vs) state body).2 =
        .array ((vs.take n).map (Value.convert type)) := by
  have hconverted : ((Value.array vs).convert type).items = vs.map (Value.convert type) :=
    Value.items_convert htype (.array vs)
  unfold written
  rw [if_pos (show (Value.array vs).isAvailable = true from rfl)]
  by_cases hboolean : type = .boolean
  · subst hboolean
    unfold encodeBody decodeBody
    simp only
    rw [ElementType.exactExtent, if_neg (by omega)] at hbody
    rw [if_neg (by omega), if_neg (by omega), hconverted, ← List.map_take]
    -- An element is on exactly if it is converted to a boolean that is on.
    have hitems : ((vs.take n).map (Value.convert .boolean)) =
        (((vs.take n).map (Value.convert .boolean)).map fun v => v.toInt64 != 0).map
          Value.boolean := by
      rw [List.map_map, List.map_map]
      exact List.map_congr_left fun v hv => v.convert_boolean (hvs v hv)
    have hbits : ((((vs.take n).map (Value.convert .boolean)).map
        fun v => v.toInt64 != 0)).length = n := by
      rw [List.length_map, List.length_map, List.length_take_of_le hlength]
    generalize ((vs.take n).map (Value.convert .boolean)).map _ = bits at hitems hbits ⊢
    have hread := map_bitAt_packBits (show bits.length ≤ 8 * body.length by omega)
    rw [hbits] at hread
    calc Value.array ((List.range n).map fun i => .boolean (bitAt (packBits body.length bits) i))
        = .array (((List.range n).map (bitAt (packBits body.length bits))).map .boolean) := by
          rw [List.map_map]
          rfl
      _ = .array ((vs.take n).map (Value.convert .boolean)) := by rw [hread, hitems]
  · have hnumeric : type.IsNumeric := ⟨hboolean, htype⟩
    rw [encodeBody_of_isNumeric hnumeric, decodeBody_of_isNumeric hnumeric, if_neg (by omega),
      hconverted]
    rw [ElementType.exactExtent_of_isNumeric hnumeric, Nat.max_eq_left (by omega)] at hbody
    rw [ElementType.decodeMany_encodeOver hnumeric hlength (by omega) hvs]

/-! ### Write and read -/

/-- **What is written is read back.** What a signal takes from a value is read back
converted to the type of the signal, with the state that was written and no other
byte changed; a value that cannot be reached clears the state byte and changes
nothing else. -/
theorem recalled_of_write (hsize : m.size < sizeLimit) (htype : type ≠ .str)
    (h : m.writeSignal address n type value state = .ok m') :
    (∀ taken, Value.Supplies n value taken →
      m'.readSignal address n type = ⟨state &&& ~~~booleanBit, taken.convert type⟩) ∧
    (∀ i, i < address ∨ address + type.exactExtent n ≤ i → m'.bytes[i]? = m.bytes[i]?) ∧
    (value = .unavailable →
      address < m.size ∧ m' = { m with bytes := m.bytes.set address 0 }) := by
  refine ⟨fun taken htaken => ?_, fun i hi => getElem?_writeSignal hsize h hi, fun hnone => ?_⟩
  · obtain ⟨body, hbody, hread⟩ := read_of_write hsize h
    have hvalue := htaken.isAvailable
    rw [hread, state_of_written hvalue]
    refine congrArg (Reading.mk _) ?_
    cases htaken with
    | scalar hn hv =>
      have hhead : value.items.head? = some value := by
        rw [Value.items_of_isScalar hv]
        rfl
      exact decode_of_head htype hn hv hvalue hhead hbody
    | first hn hv => exact decode_of_head htype hn hv hvalue rfl hbody
    | elements hn hlength hvs =>
      rw [Value.convert_array htype]
      exact decode_of_elements htype hn hlength hvs hbody
  · subst hnone
    exact writeSignal_unavailable hsize h

/-- Of four items written to three bytes the first three are read back, wrapped to
a byte. -/
theorem recalled_of_write_wrapped : ∃ m', (zeros default 16).size < sizeLimit ∧
    ElementType.uchar ≠ .str ∧
    (zeros default 16).writeSignal 4 3 .uchar
      (.array [.int 300, .str " -1 ", .boolean true, .unavailable]) 0xFF = .ok m' ∧
    Value.Supplies 3 (.array [.int 300, .str " -1 ", .boolean true, .unavailable])
      (.array [.int 300, .str " -1 ", .boolean true]) ∧
    m'.readSignal 4 3 .uchar = ⟨0x7F, .array [.uchar 44, .uchar 255, .uchar 1]⟩ ∧
    m'.bytes[8]? = some 0 := by
  have hsize : (zeros default 16).size < sizeLimit := by decide
  have hroom : 4 + ElementType.uchar.exactExtent 3 ≤ (zeros default 16).size := by decide
  obtain ⟨m', hwrite⟩ := exists_writeSignal hsize hroom
    (.array [.int 300, .str " -1 ", .boolean true, .unavailable]) 0xFF
  have hscalar : ∀ v ∈ [Value.int 300, .str " -1 ", .boolean true], v.IsScalar := by
    simp [Value.IsScalar]
  have hsupplies : Value.Supplies 3 (.array [.int 300, .str " -1 ", .boolean true, .unavailable])
      (.array [.int 300, .str " -1 ", .boolean true]) :=
    .elements (by decide) (by decide) hscalar
  obtain ⟨hread, hothers, -⟩ := recalled_of_write hsize (by decide) hwrite
  refine ⟨m', hsize, by decide, hwrite, hsupplies, ?_, ?_⟩
  · rw [hread _ hsupplies, Value.convert_array (by decide),
      List.map_congr_left fun v hv => v.convert_of_isScalar .uchar (hscalar v hv)]
    rfl
  · rw [hothers 8 (by decide)]
    decide

end Block
end SignalRegistry
