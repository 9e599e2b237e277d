/-
# Numbers in base 128

A number is written in groups of seven bits, the lowest first; every byte but
the last has its high bit set. A reader takes at most as many bytes as a word
of its size needs, and of the last of them only the bits that fit the word.
Needless zero groups are read too.

Key definitions: `Varint.encode`, `Varint.decode`.
Key theorems: `Varint.decode_encode`.
-/
import SignalRegistry.Text.Utf8

namespace SignalRegistry
namespace Varint

/-- The bytes of a number. -/
def encode (n : Nat) : Octets :=
  if n < 128 then [UInt8.ofNat n] else UInt8.ofNat (n % 128 + 128) :: encode (n / 128)

/-- The number in at most `places` bytes, of which the last possible one is
at most `last`, and the bytes after it. -/
def decode (last : UInt8) : Nat → Octets → Option (Nat × Octets)
  | 0, _ => none
  | _, [] => none
  | places + 1, b :: rest =>
    if b < 128 then
      if places = 0 ∧ last < b then none else some (b.toNat, rest)
    else
      match decode last places rest with
      | some (high, rest) => some (b.toNat % 128 + 128 * high, rest)
      | none => none

/-- Reading undoes writing, for all numbers of the word's size, whatever
follows. -/
theorem decode_encode (last : UInt8) (h : last < 128) (n : Nat) (rest : Octets) :
    ∀ places, n < (last.toNat + 1) * Nat.pow 128 places →
      decode last (places + 1) (encode n ++ rest) = some (n, rest) := by
  fun_induction encode n with
  | case1 n hn =>
    intro places hp
    have hb : (UInt8.ofNat n).toNat = n := by simp; omega
    have hlt : UInt8.ofNat n < 128 := by rw [UInt8.lt_iff_toNat_lt, hb]; exact hn
    rw [List.singleton_append, decode, if_pos hlt, if_neg, hb]
    rintro ⟨rfl, hl⟩
    rw [UInt8.lt_iff_toNat_lt, hb] at hl
    simp at hp
    omega
  | case2 n hn ih =>
    intro places hp
    cases places with
    | zero =>
      rw [UInt8.lt_iff_toNat_lt] at h
      simp at hp h
      omega
    | succ places =>
      have hb : (UInt8.ofNat (n % 128 + 128)).toNat = n % 128 + 128 := by simp; omega
      have hge : ¬ UInt8.ofNat (n % 128 + 128) < 128 := by
        rw [UInt8.lt_iff_toNat_lt, hb]; simp
      have hq : n / 128 < (last.toNat + 1) * Nat.pow 128 places := by
        rw [Nat.div_lt_iff_lt_mul (by decide), Nat.mul_assoc]
        exact hp
      rw [List.cons_append, decode, if_neg hge, ih places hq]
      simp only [hb]
      congr 2
      omega

end Varint
end SignalRegistry
