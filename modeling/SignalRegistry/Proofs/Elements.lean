/-
# The bytes of converted elements

The size of a signal is that of its state byte and its elements as long as it does
not stop at `sizeLimit` (`ElementType.extent_eq_exactExtent`).

An array is converted item by item, so the items of a converted value are the
converted items of the value (`Value.items_convert`). A single element that is
converted to a type of numbers has exactly the bytes of that type, and they read
back as the element (`Value.exists_encode`); anything else has no bytes of its
own (`Value.length_encode`). So the elements that are written one after the other
are the elements that are read (`ElementType.decodeMany_encodeOver`).

Key definitions: `ElementType.IsNumeric`, `ElementType.exactExtent`,
`Value.IsScalar`.
Key theorems: `ElementType.extent_eq_exactExtent`, `Value.items_convert`,
`Value.exists_encode`, `Value.length_encode`, `ElementType.decodeMany_encodeOver`.
-/
import SignalRegistry.Block.Typed

namespace SignalRegistry

/-- A number below a power of 256 is written in so many bytes. -/
theorem Octets.toNat_ofNat_of_lt {width n : Nat} (h : n < Nat.pow 256 width) :
    toNat (ofNat width n) = n := by
  rw [toNat_ofNat]
  exact Nat.mod_eq_of_lt h

namespace Octets

theorem ofNat_uint8 (n : UInt8) : UInt8.ofNat (toNat (ofNat 1 n.toNat)) = n := by
  rw [toNat_ofNat_of_lt n.toNat_lt, UInt8.ofNat_toNat]

theorem ofNat_uint16 (n : UInt16) : UInt16.ofNat (toNat (ofNat 2 n.toNat)) = n := by
  rw [toNat_ofNat_of_lt n.toNat_lt, UInt16.ofNat_toNat]

theorem ofNat_uint32 (n : UInt32) : UInt32.ofNat (toNat (ofNat 4 n.toNat)) = n := by
  rw [toNat_ofNat_of_lt n.toNat_lt, UInt32.ofNat_toNat]

theorem ofNat_uint64 (n : UInt64) : UInt64.ofNat (toNat (ofNat 8 n.toNat)) = n := by
  rw [toNat_ofNat_of_lt n.toNat_lt, UInt64.ofNat_toNat]

end Octets

namespace ElementType

/-- The elements are numbers, which have bytes of their own. -/
def IsNumeric (type : ElementType) : Prop := type ≠ .boolean ∧ type ≠ .str

/-- Bytes of a signal in unbounded arithmetic: its state byte, and those of its
value. -/
def exactExtent (type : ElementType) (n : Nat) : Nat :=
  match type with
  | .boolean => 1 + if n ≤ 1 then 0 else (n + 7) / 8
  | .str => 1 + max n 1
  | type => 1 + max n 1 * type.size

theorem exactExtent_of_isNumeric {type : ElementType} (htype : type.IsNumeric) (n : Nat) :
    type.exactExtent n = 1 + max n 1 * type.size := by
  cases type with
  | boolean => exact absurd rfl htype.1
  | str => exact absurd rfl htype.2
  | _ => rfl

theorem extent_le_exactExtent (type : ElementType) (n : Nat) :
    type.extent n ≤ type.exactExtent n := by
  cases type with
  | boolean =>
    unfold extent exactExtent
    simp only
    split <;> omega
  | _ =>
    simp only [extent, exactExtent, size]
    omega

/-- A size that does not stop at the limit is exact. -/
theorem extent_eq_exactExtent {type : ElementType} {n : Nat} (h : type.extent n < sizeLimit) :
    type.extent n = type.exactExtent n := by
  cases type with
  | boolean =>
    unfold extent exactExtent
    simp only
    split <;> omega
  | _ =>
    simp only [extent, exactExtent, size] at h ⊢
    omega

end ElementType

namespace Value

/-- A single element: something that is there, and no array. -/
def IsScalar (v : Value) : Prop := v ≠ unavailable ∧ ∀ items, v ≠ array items

variable {type : ElementType} {v : Value}

theorem convert_of_isScalar (type : ElementType) (hv : v.IsScalar) :
    v.convert type = v.convertScalar type := by
  rw [convert]
  · exact hv.1
  · exact hv.2

theorem items_of_isScalar (hv : v.IsScalar) : v.items = [v] := by
  rw [items]
  exact hv.2

theorem isScalar_convertScalar (type : ElementType) (v : Value) :
    (v.convertScalar type).IsScalar := by
  cases type <;> exact ⟨Value.noConfusion, fun _ => Value.noConfusion⟩

/-- Conversion goes item by item, except to a text. -/
theorem items_convert (htype : type ≠ .str) (v : Value) :
    (v.convert type).items = v.items.map (convert type) := by
  by_cases harray : ∃ vs, v = array vs
  · obtain ⟨vs, rfl⟩ := harray
    rw [convert_array htype, items, items]
  by_cases hnone : v = unavailable
  · rw [hnone, convert_unavailable]
    exact congrArg (fun w => [w]) (convert_unavailable type).symm
  · have hv : v.IsScalar := ⟨hnone, fun vs hvs => harray ⟨vs, hvs⟩⟩
    rw [convert_of_isScalar type hv, items_of_isScalar (isScalar_convertScalar type v),
      items_of_isScalar hv, List.map_singleton, convert_of_isScalar type hv]

/-- A number of the type has the bytes of the type, which read back as it. -/
theorem exists_encode (htype : type.IsNumeric) (v : Value) :
    ∃ own, (v.convertScalar type).encode? = some own ∧ own.length = type.size ∧
      type.decode own = v.convertScalar type := by
  cases type with
  | boolean => exact absurd rfl htype.1
  | str => exact absurd rfl htype.2
  | char => exact ⟨_, rfl, Octets.length_ofNat 1 _, congrArg (char ⟨·⟩) (Octets.ofNat_uint8 _)⟩
  | uchar => exact ⟨_, rfl, Octets.length_ofNat 1 _, congrArg uchar (Octets.ofNat_uint8 _)⟩
  | short => exact ⟨_, rfl, Octets.length_ofNat 2 _, congrArg (short ⟨·⟩) (Octets.ofNat_uint16 _)⟩
  | ushort => exact ⟨_, rfl, Octets.length_ofNat 2 _, congrArg ushort (Octets.ofNat_uint16 _)⟩
  | int => exact ⟨_, rfl, Octets.length_ofNat 4 _, congrArg (int ⟨·⟩) (Octets.ofNat_uint32 _)⟩
  | uint => exact ⟨_, rfl, Octets.length_ofNat 4 _, congrArg uint (Octets.ofNat_uint32 _)⟩
  | long => exact ⟨_, rfl, Octets.length_ofNat 8 _, congrArg (long ⟨·⟩) (Octets.ofNat_uint64 _)⟩
  | float => exact ⟨_, rfl, Octets.length_ofNat 4 _, congrArg (float ⟨·⟩) (Octets.ofNat_uint32 _)⟩
  | double => exact ⟨_, rfl, Octets.length_ofNat 8 _, congrArg (double ⟨·⟩) (Octets.ofNat_uint64 _)⟩

/-- The bytes that a converted value has of its own, if any, are those of an
element. -/
theorem length_encode (htype : type.IsNumeric) {own : Octets}
    (h : (v.convert type).encode? = some own) : own.length = type.size := by
  by_cases hv : v.IsScalar
  · obtain ⟨own', hown, hlength, -⟩ := exists_encode htype v
    rw [convert_of_isScalar type hv, hown] at h
    rw [← Option.some.inj h]
    exact hlength
  by_cases hnone : v = unavailable
  · rw [hnone, convert_unavailable] at h
    cases h
  · obtain ⟨vs, rfl⟩ : ∃ vs, v = array vs :=
      Classical.not_forall_not.1 fun hall => hv ⟨hnone, hall⟩
    rw [convert_array htype.2] at h
    cases h

/-- The first place gets the bytes of the first item, or keeps its own. -/
theorem encodeOver_cons {size : Nat} {item : Value} {bytes : Octets} (items : List Value)
    (hsize : size ≤ bytes.length) (hitem : ∀ own, item.encode? = some own → own.length = size) :
    encodeOver size (item :: items) bytes =
      item.encode?.getD (bytes.take size) ++ encodeOver size items (bytes.drop size) := by
  rw [encodeOver, if_neg (by omega)]
  cases hown : item.encode? with
  | none => rfl
  | some own =>
    simp only [if_pos (hitem own hown)]
    rfl

end Value

/-- The elements read are the elements written, as far as they are single ones. -/
theorem ElementType.decodeMany_encodeOver {type : ElementType} (htype : type.IsNumeric) {n : Nat}
    {vs : List Value} {bytes : Octets} (hn : n ≤ vs.length) (hbytes : n * type.size ≤ bytes.length)
    (hvs : ∀ v ∈ vs.take n, v.IsScalar) :
    type.decodeMany n (Value.encodeOver type.size (vs.map (Value.convert type)) bytes) =
      (vs.take n).map (Value.convert type) := by
  induction n generalizing vs bytes with
  | zero => rfl
  | succ n ih =>
    cases vs with
    | nil => exact absurd hn (Nat.not_succ_le_zero n)
    | cons v vs =>
      rw [List.length_cons] at hn
      rw [Nat.succ_mul] at hbytes
      rw [List.take_succ_cons] at hvs ⊢
      have hv : v.IsScalar := hvs v List.mem_cons_self
      obtain ⟨own, hown, hlength, hdecode⟩ := Value.exists_encode htype v
      rw [← v.convert_of_isScalar type hv] at hown hdecode
      have hroom : n * type.size ≤ (bytes.drop type.size).length := by
        rw [List.length_drop]
        omega
      have hrest := ih (Nat.le_of_succ_le_succ hn) hroom
        fun w hw => hvs w (List.mem_cons_of_mem v hw)
      rw [List.map_cons, Value.encodeOver_cons _ (by omega) fun _ => Value.length_encode htype,
        hown, Option.getD_some, decodeMany, List.take_left' hlength, List.drop_left' hlength, hdecode,
        hrest, List.map_cons]

namespace Block

variable {type : ElementType} (htype : type.IsNumeric) (n : Nat) (state : UInt8) (body : Octets)
include htype

theorem decodeBody_of_isNumeric : decodeBody type n state body =
    if n ≤ 1 then type.decode body else .array (type.decodeMany n body) := by
  cases type with
  | boolean => exact absurd rfl htype.1
  | str => exact absurd rfl htype.2
  | _ => rfl

theorem encodeBody_of_isNumeric (value : Value) : encodeBody type n value state body =
    (state, Value.encodeOver type.size value.items body) := by
  cases type with
  | boolean => exact absurd rfl htype.1
  | str => exact absurd rfl htype.2
  | _ => rfl

end Block
end SignalRegistry
