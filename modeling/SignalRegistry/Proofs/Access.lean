/-
# Typed access stays within the block

The size of a signal stops at `sizeLimit`, but no block is that large, so a signal
is accepted exactly if it ends within its block in unbounded arithmetic
(`Block.signalBytes?_isSome_iff_exact`).

What is accepted is then taken apart by indices and slices. `Block.checkedRead?`
and `Block.checkedWrite?` are the same access with each index and slice checked
against the bytes it is taken from, and each copy against the length of its place;
`none` is an access outside. They always have a result, and it is that of
`Block.readSignal` and `Block.writeSignal` (`Block.access_exact`), whatever the
value is.

Key definitions: `Block.checkedRead?`, `Block.checkedWrite?`.
Key theorems: `Block.signalBytes?_isSome_iff_exact`, `Block.checkedRead?_eq`,
`Block.checkedWrite?_eq`, `Block.access_exact`.
-/
import SignalRegistry.Proofs.Elements
import SignalRegistry.Proofs.Packing
import SignalRegistry.Proofs.Usability

namespace SignalRegistry

/-! ### Signals that end within their block -/

namespace Block

variable {m : Block} {address n : Nat} {type : ElementType}

/-- No signal is accepted because its size stops at the limit. -/
theorem signalBytes?_isSome_iff_exact (hsize : m.size < sizeLimit) :
    (m.signalBytes? address n type).isSome = true ↔
      address + type.exactExtent n ≤ m.size := by
  rw [signalBytes?_isSome_iff]
  constructor
  · rintro ⟨-, hstop⟩
    rw [← ElementType.extent_eq_exactExtent (by omega)]
    exact hstop
  · intro hstop
    have hle := type.extent_le_exactExtent n
    omega

/-- The bytes of a signal in exact arithmetic. -/
theorem exists_cons_exact (hsize : m.size < sizeLimit) {bytes : Octets}
    (h : m.signalBytes? address n type = some bytes) :
    ∃ state body, bytes = state :: body ∧ body.length + 1 = type.exactExtent n := by
  have hstop := ((signalBytes?_isSome_iff m address n type).1 (by rw [h]; rfl)).2
  rw [← ElementType.extent_eq_exactExtent (show type.extent n < sizeLimit by omega)]
  exact exists_cons_of_signalBytes? h

end Block

/-! ### Checked indices, slices and copies -/

theorem mapM_eq_some_map {α β : Type} {f : α → Option β} {g : α → β} {l : List α}
    (h : ∀ a ∈ l, f a = some (g a)) : l.mapM f = some (l.map g) := by
  induction l with
  | nil => rfl
  | cons a l ih =>
    rw [List.mapM_cons, h a List.mem_cons_self, ih fun b hb => h b (List.mem_cons_of_mem a hb)]
    rfl

namespace Octets

/-- The bytes from `start` up to `stop`, if they are all there. -/
def slice? (bytes : Octets) (start stop : Nat) : Option Octets :=
  if start ≤ stop ∧ stop ≤ bytes.length then some ((bytes.drop start).take (stop - start)) else none

/-- The bytes with the one at an index replaced, if it is there. -/
def set? (bytes : Octets) (i : Nat) (b : UInt8) : Option Octets :=
  if i < bytes.length then some (bytes.set i b) else none

/-- A copy of the bytes in a place, if they are as many as it has. -/
def copy? (place source : Octets) : Option Octets :=
  if source.length = place.length then some source else none

/-- The chunks of `size` bytes, without what is left at the end. -/
def chunks (size : Nat) (bytes : Octets) : List Octets :=
  (List.range (bytes.length / size)).map fun i => (bytes.drop (i * size)).take size

theorem slice?_zero {bytes : Octets} {stop : Nat} (h : stop ≤ bytes.length) :
    slice? bytes 0 stop = some (bytes.take stop) := by
  unfold slice?
  rw [if_pos ⟨Nat.zero_le stop, h⟩, List.drop_zero, Nat.sub_zero]

theorem slice?_tail (b : UInt8) (bytes : Octets) :
    slice? (b :: bytes) 1 (b :: bytes).length = some bytes := by
  unfold slice?
  rw [List.length_cons, if_pos ⟨Nat.le_add_left 1 _, Nat.le_refl _⟩, List.drop_succ_cons,
    List.drop_zero, Nat.add_sub_cancel, List.take_length]

theorem copy?_take {place source : Octets} {k : Nat} (hplace : k ≤ place.length)
    (hsource : k ≤ source.length) :
    copy? (place.take k) (source.take k) = some (source.take k) := by
  refine if_pos ?_
  rw [List.length_take_of_le hplace, List.length_take_of_le hsource]

theorem mapM_range_length (bytes : Octets) :
    (List.range bytes.length).mapM (bytes[·]?) = some bytes := by
  have hget : ∀ i ∈ List.range bytes.length, bytes[i]? = some (bytes.getD i 0) := by
    intro i hi
    rw [List.getD_eq_getElem?_getD, List.getElem?_eq_getElem (List.mem_range.1 hi),
      Option.getD_some]
  rw [mapM_eq_some_map hget, map_range_getD]

theorem length_of_mem_chunks {size : Nat} {bytes chunk : Octets} (h : chunk ∈ chunks size bytes) :
    chunk.length = size := by
  obtain ⟨i, hi, rfl⟩ := List.mem_map.1 h
  have hi := List.mem_range.1 hi
  have hsize : 0 < size := Nat.pos_of_ne_zero fun h0 => by simp [h0] at hi
  have hle : (i + 1) * size ≤ bytes.length := (Nat.le_div_iff_mul_le hsize).1 hi
  rw [Nat.succ_mul] at hle
  rw [List.length_take, List.length_drop]
  omega

end Octets

/-! ### Reading with every access checked -/

namespace ElementType

/-- One number from its bytes, each of which has to be there. -/
def checkedDecode? (type : ElementType) (bytes : Octets) : Option Value := do
  let own ← (List.range type.size).mapM (bytes[·]?)
  return type.decode own

theorem checkedDecode?_eq {type : ElementType} {bytes : Octets} (h : bytes.length = type.size) :
    type.checkedDecode? bytes = some (type.decode bytes) := by
  unfold checkedDecode?
  rw [← h, Octets.mapM_range_length]
  rfl

theorem decodeMany_eq (type : ElementType) (n : Nat) (bytes : Octets) :
    type.decodeMany n bytes =
      (List.range n).map fun i => type.decode ((bytes.drop (i * type.size)).take type.size) := by
  induction n generalizing bytes with
  | zero => rfl
  | succ n ih =>
    rw [decodeMany, ih, List.range_succ_eq_map, List.map_cons, List.map_map, Nat.zero_mul,
      List.drop_zero]
    refine congrArg (_ :: ·) (List.map_congr_left fun i _ => ?_)
    rw [Function.comp_apply, List.drop_drop, Nat.succ_mul, Nat.add_comm]

end ElementType

namespace Block

/-- `Block.decodeBody` with every access checked. -/
def checkedDecodeBody? (type : ElementType) (n : Nat) (state : UInt8) (body : Octets) :
    Option Value :=
  match type with
  | .boolean =>
    if n ≤ 1 then some (.boolean (state &&& booleanBit != 0))
    else do
      let items ← (List.range n).mapM fun i => do
        let b ← body[i / 8]?
        return .boolean (b.toNat.testBit (i % 8))
      return .array items
  | .str => do
    let text ← body.slice? 0 (body.findIdx (· == 0))
    return .str (String.ofList (Utf8.decodeLossy text))
  | type =>
    if n ≤ 1 then type.checkedDecode? body
    else do
      let items ← (body.chunks type.size).mapM type.checkedDecode?
      return .array items

/-- `Block.readSignal` with every access checked: `none` is one outside. -/
def checkedRead? (m : Block) (address n : Nat) (type : ElementType) : Option Reading :=
  match m.signalBytes? address n type with
  | none => some .none
  | some bytes => do
    let state ← bytes[0]?
    let body ← bytes.slice? 1 bytes.length
    let value ← checkedDecodeBody? type n state body
    return ⟨state &&& ~~~booleanBit, value⟩

theorem checkedDecodeBody?_of_isNumeric {type : ElementType} (htype : type.IsNumeric) (n : Nat)
    (state : UInt8) (body : Octets) : checkedDecodeBody? type n state body =
      if n ≤ 1 then type.checkedDecode? body
      else (body.chunks type.size).mapM type.checkedDecode? >>= fun items => some (.array items) := by
  cases type with
  | boolean => exact absurd rfl htype.1
  | str => exact absurd rfl htype.2
  | _ => rfl

/-- The value of a signal is read without an access outside. -/
theorem checkedDecodeBody?_eq (type : ElementType) (n : Nat) (state : UInt8) {body : Octets}
    (hbody : body.length + 1 = type.exactExtent n) :
    checkedDecodeBody? type n state body = some (decodeBody type n state body) := by
  by_cases htype : type.IsNumeric
  · rw [checkedDecodeBody?_of_isNumeric htype, decodeBody_of_isNumeric htype]
    rw [ElementType.exactExtent_of_isNumeric htype] at hbody
    by_cases hn : n ≤ 1
    · rw [Nat.max_eq_right hn, Nat.one_mul] at hbody
      rw [if_pos hn, if_pos hn, ElementType.checkedDecode?_eq (by omega)]
    · have hlength : body.length = n * type.size := by
        rw [Nat.max_eq_left (by omega)] at hbody
        omega
      have hitems : (body.chunks type.size).mapM type.checkedDecode? =
          some (type.decodeMany n body) := by
        rw [mapM_eq_some_map fun chunk hchunk =>
          ElementType.checkedDecode?_eq (Octets.length_of_mem_chunks hchunk), Octets.chunks,
          List.map_map, type.decodeMany_eq, hlength, Nat.mul_div_cancel n type.size_pos]
        rfl
      rw [if_neg hn, if_neg hn, hitems]
      rfl
  cases type with
  | boolean =>
    unfold checkedDecodeBody? decodeBody
    simp only
    by_cases hn : n ≤ 1
    · rw [if_pos hn, if_pos hn]
    · rw [if_neg hn, if_neg hn]
      rw [ElementType.exactExtent, if_neg hn] at hbody
      rw [mapM_eq_some_map (g := fun i => .boolean (bitAt body i)) fun i hi => ?_]
      · rfl
      · have hi : i / 8 < body.length := by
          have := List.mem_range.1 hi
          omega
        rw [List.getElem?_eq_getElem hi, bitAt, List.getD_eq_getElem _ _ hi]
        rfl
  | str =>
    have htext : body.slice? 0 (body.findIdx (· == 0)) = some (body.takeWhile (· != 0)) := by
      have hend : (body.findIdx fun b => !(b != 0)) = body.findIdx (· == 0) := by
        simp only [bne, Bool.not_not]
      rw [Octets.slice?_zero List.findIdx_le_length, List.takeWhile_eq_take_findIdx_not, hend]
    unfold checkedDecodeBody? decodeBody
    simp only
    rw [htext]
    rfl
  | _ => exact absurd ⟨ElementType.noConfusion, ElementType.noConfusion⟩ htype

/-- A signal is read without an access outside. -/
theorem checkedRead?_eq {m : Block} (hsize : m.size < sizeLimit) (address n : Nat)
    (type : ElementType) :
    m.checkedRead? address n type = some (m.readSignal address n type) := by
  unfold checkedRead? readSignal
  cases h : m.signalBytes? address n type with
  | none => rfl
  | some bytes =>
    obtain ⟨state, body, rfl, hbody⟩ := exists_cons_exact hsize h
    simp only
    rw [Octets.slice?_tail, List.getElem?_cons_zero]
    simp only [Option.bind_eq_bind, Option.bind_some, checkedDecodeBody?_eq type n state hbody]
    rfl

end Block

/-! ### Writing with every access checked -/

/-- The bytes of a place with those of a value over them, if it has any. They have
to be as many as the place has. -/
def Value.checkedEncode? (v : Value) (place : Octets) : Option Octets :=
  match v.encode? with
  | some own => place.copy? own
  | none => some place

/-- `Value.encodeOver` with every access checked. -/
def Value.checkedEncodeOver? (size : Nat) : List Value → Octets → Option Octets
  | [], bytes => some bytes
  | item :: items, bytes =>
    if bytes.length < size then some bytes
    else do
      let place ← bytes.slice? 0 size
      let own ← item.checkedEncode? place
      let rest ← checkedEncodeOver? size items (bytes.drop size)
      return own ++ rest

/-- No element is copied to a place of another length. -/
theorem Value.checkedEncodeOver?_eq {size : Nat} {items : List Value}
    (hitems : ∀ item ∈ items, ∀ own, item.encode? = some own → own.length = size)
    (bytes : Octets) :
    checkedEncodeOver? size items bytes = some (encodeOver size items bytes) := by
  induction items generalizing bytes with
  | nil => rfl
  | cons item items ih =>
    have hitem := hitems item List.mem_cons_self
    have hrest := ih fun v hv => hitems v (List.mem_cons_of_mem item hv)
    rw [checkedEncodeOver?]
    by_cases hsize : bytes.length < size
    · rw [if_pos hsize, encodeOver, if_pos hsize]
    · have hplace : (bytes.take size).length = size := by
        rw [List.length_take]
        omega
      have hown : item.checkedEncode? (bytes.take size) =
          some (item.encode?.getD (bytes.take size)) := by
        unfold checkedEncode?
        cases hencode : item.encode? with
        | none => rfl
        | some own =>
          simp only [Octets.copy?]
          rw [if_pos ((hitem own hencode).trans hplace.symm)]
          rfl
      rw [if_neg hsize, Octets.slice?_zero (by omega), encodeOver_cons items (by omega) hitem]
      simp only [Option.bind_eq_bind, Option.bind_some, hown, hrest]
      rfl

/-- Whatever is there is converted to a text. -/
theorem Value.exists_str_of_convert {v : Value} (hv : v.isAvailable = true) :
    ∃ s, v.convert .str = str s := by
  cases v with
  | unavailable => cases hv
  | array items => exact ⟨_, by rw [convert, if_pos rfl]⟩
  | _ =>
    exact ⟨_, convert_of_isScalar .str ⟨Value.noConfusion, fun _ => Value.noConfusion⟩⟩

namespace Block

/-- `Block.encodeBody` with every access checked. -/
def checkedEncodeBody? (type : ElementType) (n : Nat) (value : Value) (state : UInt8)
    (body : Octets) : Option (UInt8 × Octets) :=
  let isOn (item : Value) : Bool := item.toInt64 != 0
  match type with
  | .boolean =>
    if n ≤ 1 then
      some ((if (value.items.head?.map isOn).getD false then state ||| booleanBit else state), body)
    else do
      let bits ← Octets.setBits? ((value.items.take n).map isOn) 0 (List.replicate body.length 0)
      return (state, bits)
  | .str =>
    match value with
    | .str s => do
      let length := min (Utf8.ofString s).length (n - 1)
      let place ← Octets.slice? (List.replicate body.length 0) 0 length
      let text ← (Utf8.ofString s).slice? 0 length
      let text ← place.copy? text
      return (state, text ++ List.replicate (body.length - length) 0)
    | value => do
      let body ← Value.checkedEncodeOver? 1 value.items body
      return (state, body)
  | type => do
    let body ← Value.checkedEncodeOver? type.size value.items body
    return (state, body)

/-- The answer to a change of a block that may fail, and the block afterwards. -/
def outcome (m : Block) (result : Except Error Block) : Except Error Unit × Block :=
  match result with
  | .ok changed => (.ok (), changed)
  | .error e => (.error e, m)

/-- `Block.writeSignal` with every access checked: `none` is one outside. -/
def checkedWrite? (m : Block) (address n : Nat) (type : ElementType) (value : Value)
    (state : UInt8) : Option (Except Error Unit × Block) :=
  match m.signalBytes? address n type with
  | none => some (.error (.malformed .outOfRange), m)
  | some bytes => do
    let changed ←
      if value.isAvailable then do
        let head ← bytes.slice? 0 1
        let body ← bytes.slice? 1 bytes.length
        let (state, body) ←
          checkedEncodeBody? type n (value.convert type) (state &&& ~~~booleanBit) body
        let head ← head.set? 0 state
        pure (head ++ body)
      else bytes.set? 0 0
    return (.ok (), { m with bytes := overwrite m.bytes address changed })

theorem checkedEncodeBody?_of_isNumeric {type : ElementType} (htype : type.IsNumeric) (n : Nat)
    (value : Value) (state : UInt8) (body : Octets) : checkedEncodeBody? type n value state body =
      Value.checkedEncodeOver? type.size value.items body >>= fun body => some (state, body) := by
  cases type with
  | boolean => exact absurd rfl htype.1
  | str => exact absurd rfl htype.2
  | _ => rfl

/-- A converted value is written without an access outside. -/
theorem checkedEncodeBody?_eq (type : ElementType) (n : Nat) {v : Value} (hv : v.isAvailable = true)
    (state : UInt8) {body : Octets} (hbody : body.length + 1 = type.exactExtent n) :
    checkedEncodeBody? type n (v.convert type) state body =
      some (encodeBody type n (v.convert type) state body) := by
  by_cases htype : type.IsNumeric
  · have hitems : ∀ item ∈ (v.convert type).items, ∀ own, item.encode? = some own →
        own.length = type.size := by
      intro item hitem own hown
      rw [Value.items_convert htype.2] at hitem
      obtain ⟨w, -, rfl⟩ := List.mem_map.1 hitem
      exact Value.length_encode htype hown
    rw [checkedEncodeBody?_of_isNumeric htype, Value.checkedEncodeOver?_eq hitems,
      encodeBody_of_isNumeric htype]
    rfl
  cases type with
  | boolean =>
    unfold checkedEncodeBody? encodeBody
    simp only
    by_cases hn : n ≤ 1
    · rw [if_pos hn, if_pos hn]
    · rw [ElementType.exactExtent, if_neg hn] at hbody
      rw [if_neg hn, if_neg hn, Octets.setBits?_replicate ?_]
      · rfl
      · rw [List.length_map, List.length_take]
        omega
  | str =>
    obtain ⟨s, hs⟩ := v.exists_str_of_convert hv
    have hlength : min (Utf8.ofString s).length (n - 1) ≤ body.length := by
      rw [ElementType.exactExtent] at hbody
      omega
    have hcut : (Utf8.ofString s).take (min (n - 1) body.length) =
        (Utf8.ofString s).take (min (Utf8.ofString s).length (n - 1)) := by
      rw [List.take_eq_take_iff]
      rw [ElementType.exactExtent] at hbody
      omega
    have hsource := Nat.min_le_left (Utf8.ofString s).length (n - 1)
    have htext : ((Utf8.ofString s).take (min (Utf8.ofString s).length (n - 1))).length =
        min (Utf8.ofString s).length (n - 1) := List.length_take_of_le hsource
    have hplace : min (Utf8.ofString s).length (n - 1) ≤
        (List.replicate body.length (0 : UInt8)).length := by
      rw [List.length_replicate]
      exact hlength
    unfold checkedEncodeBody? encodeBody
    simp only [hs, hcut, htext]
    rw [Octets.slice?_zero hplace, Octets.slice?_zero hsource]
    simp only [Option.bind_eq_bind, Option.bind_some, Octets.copy?_take hplace hsource]
    rfl
  | _ => exact absurd ⟨ElementType.noConfusion, ElementType.noConfusion⟩ htype

/-- A signal is written without an access outside. -/
theorem checkedWrite?_eq {m : Block} (hsize : m.size < sizeLimit) (address n : Nat)
    (type : ElementType) (value : Value) (state : UInt8) :
    m.checkedWrite? address n type value state =
      some (m.outcome (m.writeSignal address n type value state)) := by
  unfold checkedWrite? writeSignal
  cases h : m.signalBytes? address n type with
  | none => rfl
  | some bytes =>
    obtain ⟨old, body, rfl, hbody⟩ := exists_cons_exact hsize h
    simp only
    by_cases hv : value.isAvailable = true
    · rw [if_pos hv, if_pos hv, Octets.slice?_tail]
      rw [Octets.slice?_zero (show 1 ≤ (old :: body).length by rw [List.length_cons]; omega),
        Option.bind_eq_bind]
      simp only [Option.bind_eq_bind, Option.bind_some, checkedEncodeBody?_eq type n hv _ hbody]
      rfl
    · rw [if_neg hv, if_neg hv]
      rfl

/-! ### Exact at the limits -/

/-- A write to a signal that is there succeeds, whatever the value is. -/
theorem exists_writeSignal_of_isSome {m : Block} {address n : Nat} {type : ElementType}
    (h : (m.signalBytes? address n type).isSome = true) (value : Value) (state : UInt8) :
    ∃ m', m.writeSignal address n type value state = .ok m' := by
  have hok := (writeSignal_isOk_iff m address n type value state).2 h
  cases hresult : m.writeSignal address n type value state with
  | error e =>
    rw [hresult] at hok
    cases hok
  | ok m' => exact ⟨m', rfl⟩

theorem exists_writeSignal {m : Block} (hsize : m.size < sizeLimit) {address n : Nat}
    {type : ElementType} (hstop : address + type.exactExtent n ≤ m.size) (value : Value)
    (state : UInt8) : ∃ m', m.writeSignal address n type value state = .ok m' :=
  exists_writeSignal_of_isSome ((signalBytes?_isSome_iff_exact hsize).2 hstop) value state

/-- **No access is outside of the block.** A signal is read and written exactly if it
ends within the block in unbounded arithmetic, and then no access is outside,
whatever the value is. A signal that does not is unavailable, and a write to it fails
and leaves the block as it is. -/
theorem access_exact {m : Block} (hsize : m.size < sizeLimit) (address n : Nat)
    (type : ElementType) (value : Value) (state : UInt8) :
    (address + type.exactExtent n ≤ m.size →
      (m.readSignal address n type).value ≠ .unavailable ∧
      m.checkedRead? address n type = some (m.readSignal address n type) ∧
      ∃ m', m.writeSignal address n type value state = .ok m' ∧
        m.checkedWrite? address n type value state = some (.ok (), m')) ∧
    (m.size < address + type.exactExtent n →
      m.readSignal address n type = .none ∧
      m.checkedRead? address n type = some .none ∧
      m.writeSignal address n type value state = .error (.malformed .outOfRange) ∧
      m.checkedWrite? address n type value state = some (.error (.malformed .outOfRange), m)) := by
  have hsome : (m.signalBytes? address n type).isSome = true ↔
      address + type.exactExtent n ≤ m.size := signalBytes?_isSome_iff_exact hsize
  have hread := checkedRead?_eq hsize address n type
  have hwrite := checkedWrite?_eq hsize address n type value state
  constructor
  · intro hstop
    obtain ⟨m', hresult⟩ := exists_writeSignal hsize hstop value state
    rw [hresult] at hwrite
    exact ⟨readSignal_ne_unavailable (hsome.2 hstop), hread, m', hresult, hwrite⟩
  · intro hstop
    have hnone : m.signalBytes? address n type = none := by
      rw [← Option.not_isSome_iff_eq_none, hsome]
      omega
    have hunread : m.readSignal address n type = .none := by
      unfold readSignal
      rw [hnone]
    have hunwritten : m.writeSignal address n type value state =
        .error (.malformed .outOfRange) := by
      unfold writeSignal
      rw [hnone]
    rw [hunread] at hread
    rw [hunwritten] at hwrite
    exact ⟨hunread, hread, hunwritten, hwrite⟩

/-- Two numbers of two bytes have room at the end of eight bytes, but not one
byte later, even if they are none. -/
theorem access_exact_lastPlace :
    (zeros default 8).size < sizeLimit ∧
    3 + ElementType.short.exactExtent 2 ≤ (zeros default 8).size ∧
    (zeros default 8).size < 4 + ElementType.short.exactExtent 2 ∧
    (∃ m', (zeros default 8).checkedWrite? 3 2 .short (.array [.array [], .str "x"]) 1 =
      some (.ok (), m')) ∧
    (zeros default 8).checkedWrite? 4 2 .short (.array [.array [], .str "x"]) 1 =
      some (.error (.malformed .outOfRange), zeros default 8) := by
  have hsize : (zeros default 8).size < sizeLimit := by decide
  have hlast : 3 + ElementType.short.exactExtent 2 ≤ (zeros default 8).size := by decide
  have hpast : (zeros default 8).size < 4 + ElementType.short.exactExtent 2 := by decide
  obtain ⟨-, -, m', -, hwrite⟩ :=
    (access_exact hsize 3 2 .short (.array [.array [], .str "x"]) 1).1 hlast
  obtain ⟨-, -, -, hrefused⟩ :=
    (access_exact hsize 4 2 .short (.array [.array [], .str "x"]) 1).2 hpast
  exact ⟨hsize, hlast, hpast, ⟨m', hwrite⟩, hrefused⟩

end Block
end SignalRegistry
