/-
# Packed booleans, bit by bit

Several booleans are packed eight to a byte, the first in the lowest bit. Each
is found again at its place (`bitAt_packBits`), and the packed bytes are what is
left when the bits that are on are set one after the other in bytes of zeros
(`setBits?_replicate`); as long as there is a bit for each boolean, none of them
falls outside the bytes.

Key definitions: `Octets.setBit?`, `Octets.setBits?`.
Key theorems: `testBit_packByte`, `bitAt_packBits`, `map_bitAt_packBits`,
`Octets.setBits?_replicate`.
-/
import Mathlib.Data.List.GetD
import SignalRegistry.Block.Typed

namespace SignalRegistry

/-- A list is read off by its indices. -/
theorem map_range_getD {α : Type} (l : List α) (d : α) :
    ((List.range l.length).map fun i => l.getD i d) = l := by
  refine List.ext_getElem (by rw [List.length_map, List.length_range]) fun i _ hi => ?_
  rw [List.getElem_map, List.getElem_range, List.getD_eq_getElem _ _ hi]

/-! ### Where a bit goes -/

theorem testBit_foldr (bits : List Bool) (j : Nat) :
    (bits.foldr (fun (on : Bool) n => on.toNat + 2 * n) 0).testBit j = bits.getD j false := by
  induction bits generalizing j with
  | nil => rw [List.foldr_nil, Nat.zero_testBit, List.getD_nil]
  | cons on bits ih =>
    rw [List.foldr_cons]
    cases j with
    | zero =>
      rw [List.getD_cons_zero, Nat.testBit_zero]
      cases on <;> simp
    | succ j =>
      have hdiv : (on.toNat + 2 * bits.foldr (fun (on : Bool) n => on.toNat + 2 * n) 0) / 2 =
          bits.foldr (fun (on : Bool) n => on.toNat + 2 * n) 0 := by
        have hon : on.toNat < 2 := on.toNat_lt
        omega
      rw [List.getD_cons_succ, Nat.testBit_succ, hdiv, ih]

/-- A byte has the bits that it is made of, and no other. -/
theorem testBit_packByte (bits : List Bool) (j : Nat) :
    (packByte bits).toNat.testBit j = (decide (j < 8) && bits.getD j false) := by
  unfold packByte
  rw [UInt8.toNat_ofNat', Nat.testBit_mod_two_pow, testBit_foldr]

theorem eq_of_testBit_eq {a b : UInt8} (h : ∀ j < 8, a.toNat.testBit j = b.toNat.testBit j) :
    a = b := by
  refine UInt8.toNat_inj.1 (Nat.eq_of_testBit_eq fun j => ?_)
  by_cases hj : j < 8
  · exact h j hj
  · have hpow : 2 ^ 8 ≤ 2 ^ j := Nat.pow_le_pow_right (by decide) (by omega)
    rw [Nat.testBit_lt_two_pow (Nat.lt_of_lt_of_le a.toNat_lt hpow),
      Nat.testBit_lt_two_pow (Nat.lt_of_lt_of_le b.toNat_lt hpow)]

theorem getElem?_packBits (length : Nat) (bits : List Bool) (k : Nat) :
    (packBits length bits)[k]? =
      if k < length then some (packByte ((bits.drop (8 * k)).take 8)) else none := by
  induction length generalizing bits k with
  | zero => rfl
  | succ length ih =>
    rw [packBits]
    cases k with
    | zero => rfl
    | succ k =>
      rw [List.getElem?_cons_succ, ih, List.drop_drop, Nat.mul_succ, Nat.add_comm 8]
      simp only [Nat.succ_lt_succ_iff]

/-- The bits of a byte are the eight from its place on. -/
theorem testBit_chunk (bits : List Bool) (k : Nat) {j : Nat} (hj : j < 8) :
    (packByte ((bits.drop (8 * k)).take 8)).toNat.testBit j = bits.getD (8 * k + j) false := by
  rw [testBit_packByte, decide_eq_true hj, Bool.true_and, List.getD_eq_getElem?_getD,
    List.getElem?_take_of_lt hj, List.getElem?_drop, ← List.getD_eq_getElem?_getD]

/-- A packed boolean is found at its place. -/
theorem bitAt_packBits {length i : Nat} (bits : List Bool) (hi : i < 8 * length) :
    bitAt (packBits length bits) i = bits.getD i false := by
  have hplace : 8 * (i / 8) + i % 8 = i := Nat.div_add_mod i 8
  unfold bitAt
  rw [List.getD_eq_getElem?_getD, getElem?_packBits, if_pos (by omega), Option.getD_some,
    testBit_chunk bits _ (Nat.mod_lt i (by decide)), hplace]

/-- Packed booleans are all found again. -/
theorem map_bitAt_packBits {length : Nat} {bits : List Bool} (h : bits.length ≤ 8 * length) :
    (List.range bits.length).map (bitAt (packBits length bits)) = bits := by
  have hread : ∀ i ∈ List.range bits.length,
      bitAt (packBits length bits) i = bits.getD i false := by
    intro i hi
    have hi := List.mem_range.1 hi
    exact bitAt_packBits bits (by omega)
  rw [List.map_congr_left hread, map_range_getD]

/-- Bytes are packed from the bits alone; zero bits at the end do not count. -/
theorem packBits_congr {length : Nat} {bits bits' : List Bool}
    (h : ∀ i, bits.getD i false = bits'.getD i false) :
    packBits length bits = packBits length bits' := by
  refine List.ext_getElem? fun k => ?_
  rw [getElem?_packBits, getElem?_packBits]
  split
  · refine congrArg some (eq_of_testBit_eq fun j hj => ?_)
    rw [testBit_chunk bits k hj, testBit_chunk bits' k hj, h]
  · rfl

theorem packBits_nil (length : Nat) : packBits length [] = List.replicate length 0 := by
  induction length with
  | zero => rfl
  | succ length ih =>
    rw [packBits, List.drop_nil, ih, List.replicate_succ]
    rfl

/-! ### Setting bit after bit -/

namespace Octets

/-- The bytes with a bit set, counted from the lowest bit of the first byte;
`none` if its byte is not there. -/
def setBit? (bytes : Octets) (i : Nat) : Option Octets := do
  let b ← bytes[i / 8]?
  return bytes.set (i / 8) (b ||| 1 <<< UInt8.ofNat (i % 8))

/-- The bytes with a bit set for each boolean that is on, from bit `i` on. -/
def setBits? : List Bool → Nat → Octets → Option Octets
  | [], _, bytes => some bytes
  | on :: bits, i, bytes =>
    (if on then bytes.setBit? i else some bytes) >>= fun bytes => setBits? bits (i + 1) bytes

theorem testBit_or_shiftLeft (b : UInt8) {k j : Nat} (hk : k < 8) (hj : j < 8) :
    (b ||| 1 <<< UInt8.ofNat k).toNat.testBit j = (b.toNat.testBit j || decide (k = j)) := by
  have hshift : (UInt8.ofNat k).toNat % 8 = k := by
    rw [UInt8.toNat_ofNat_of_lt' (show k < 256 by omega), Nat.mod_eq_of_lt hk]
  have hone : (1 : UInt8).toNat = 1 := rfl
  rw [UInt8.toNat_or, UInt8.toNat_shiftLeft, hshift, hone, Nat.testBit_or, Nat.testBit_mod_two_pow,
    Nat.one_shiftLeft, Nat.testBit_two_pow, decide_eq_true hj, Bool.true_and]

theorem getD_concat (bits : List Bool) (on : Bool) (i : Nat) :
    (bits ++ [on]).getD i false = (bits.getD i false || (on && decide (bits.length = i))) := by
  rcases Nat.lt_trichotomy i bits.length with hi | rfl | hi
  · rw [List.getD_append _ _ _ _ hi, decide_eq_false (by omega), Bool.and_false, Bool.or_false]
  · rw [List.getD_append_right _ _ _ _ (Nat.le_refl _), Nat.sub_self, List.getD_cons_zero,
      List.getD_eq_default _ _ (Nat.le_refl _), decide_eq_true rfl, Bool.and_true, Bool.false_or]
  · have hlength : (bits ++ [on]).length ≤ i := by
      rw [List.length_append, List.length_singleton]
      omega
    rw [List.getD_eq_default _ _ hlength, List.getD_eq_default _ _ (by omega),
      decide_eq_false (by omega), Bool.and_false, Bool.or_false]

/-- Setting the bit after those packed packs one more. -/
theorem setBit?_packBits {length : Nat} {bits : List Bool} (h : bits.length < 8 * length) :
    setBit? (packBits length bits) bits.length = some (packBits length (bits ++ [true])) := by
  have hbyte : bits.length / 8 < length := by omega
  unfold setBit?
  rw [getElem?_packBits, if_pos hbyte]
  refine congrArg some (List.ext_getElem? fun k => ?_)
  rw [getElem?_packBits]
  by_cases hk : bits.length / 8 = k
  · subst hk
    rw [List.getElem?_set_self (by rw [length_packBits]; exact hbyte), if_pos hbyte]
    refine congrArg some (eq_of_testBit_eq fun j hj => ?_)
    have hplace : bits.length % 8 = j ↔ bits.length = 8 * (bits.length / 8) + j := by omega
    rw [testBit_or_shiftLeft _ (Nat.mod_lt _ (by decide)) hj, testBit_chunk _ _ hj,
      testBit_chunk _ _ hj, getD_concat, Bool.true_and, decide_eq_decide.2 hplace]
  · rw [List.getElem?_set_ne hk, getElem?_packBits]
    split
    · refine congrArg some (eq_of_testBit_eq fun j hj => ?_)
      have hplace : bits.length ≠ 8 * k + j := by omega
      rw [testBit_chunk _ _ hj, testBit_chunk _ _ hj, getD_concat, decide_eq_false hplace,
        Bool.and_false, Bool.or_false]
    · rfl

theorem packBits_concat_false (length : Nat) (bits : List Bool) :
    packBits length (bits ++ [false]) = packBits length bits :=
  packBits_congr fun i => by rw [getD_concat, Bool.false_and, Bool.or_false]

theorem setBits?_packBits {length : Nat} {before bits : List Bool}
    (h : before.length + bits.length ≤ 8 * length) :
    setBits? bits before.length (packBits length before) =
      some (packBits length (before ++ bits)) := by
  induction bits generalizing before with
  | nil => rw [setBits?, List.append_nil]
  | cons on bits ih =>
    rw [List.length_cons] at h
    have hset : (if on then setBit? (packBits length before) before.length
        else some (packBits length before)) = some (packBits length (before ++ [on])) := by
      cases on with
      | true => exact setBit?_packBits (by omega)
      | false => exact congrArg some (packBits_concat_false length before).symm
    have hroom : (before ++ [on]).length + bits.length ≤ 8 * length := by
      rw [List.length_append, List.length_singleton]
      omega
    have hnext := ih hroom
    rw [List.length_append, List.length_singleton, List.append_assoc,
      List.singleton_append] at hnext
    rw [setBits?, hset]
    exact hnext

/-- With a bit for each of them, booleans set one by one are packed. -/
theorem setBits?_replicate {length : Nat} {bits : List Bool} (h : bits.length ≤ 8 * length) :
    setBits? bits 0 (List.replicate length 0) = some (packBits length bits) := by
  have hroom : ([] : List Bool).length + bits.length ≤ 8 * length := by
    rw [List.length_nil, Nat.zero_add]
    exact h
  rw [← packBits_nil]
  exact setBits?_packBits hroom

end Octets
end SignalRegistry
