/-
# UTF-8 that is read back, and cut

The bytes of a character are a well-formed group (`Utf8.exists_isGroup`), so they
are read back as that character (`Utf8.decodeLossy_encodeChar_append`). What is left
of a character that is cut still begins a group and is read as a single U+FFFD. So
of a text that is cut after some bytes the characters that fit are read, and U+FFFD
after them if the cut is within a character (`Utf8.decodeLossy_take_encode`).

A well-formed group has the bytes of its character (`Utf8.IsGroup.encodeChar_eq`), so
no other bytes are read as a text by a reader that refuses all ill-formed groups
(`Utf8.decode?_eq_some_iff`).

Key definitions: `Utf8.IsGroup`, `Utf8.CutsCleanly`.
Key theorems: `Utf8.exists_isGroup`, `Utf8.decode?_eq_some_iff`, `isPrefix_fitting`,
`Utf8.cutsCleanly_iff`, `Utf8.decodeLossy_take_encode`.
-/
import Mathlib.Data.List.Forall2
import SignalRegistry.Name

namespace SignalRegistry
namespace Utf8

/-! ### The byte group of a character -/

/-- Each byte lies within its bounds. -/
def Within (bounds : List Bounds) (tail : Octets) : Prop :=
  List.Forall₂ (fun limits b => limits.1 ≤ b ∧ b ≤ limits.2) bounds tail

/-- The bytes are the well-formed group of a code point. -/
structure IsGroup (n : Nat) (first : UInt8) (tail : Octets) : Prop where
  within : ∃ bounds, continuation? first = some bounds ∧ Within bounds tail
  value : codePoint first tail = n

theorem matched_append {bounds : List Bounds} {tail : Octets} (h : Within bounds tail)
    (rest : Octets) : matched bounds (tail ++ rest) = tail.length := by
  induction h with
  | nil => cases rest <;> rfl
  | cons hb _ ih => rw [List.cons_append, matched, if_pos hb, ih, List.length_cons]

theorem matched_take {bounds : List Bounds} {tail : Octets} (h : Within bounds tail) (k : Nat) :
    matched bounds (tail.take k) = min k tail.length := by
  induction h generalizing k with
  | nil => rw [List.take_nil, matched, List.length_nil, Nat.min_zero]; exact fun _ _ => by simp
  | cons hb _ ih =>
    cases k with
    | zero => rw [List.take_zero, Nat.zero_min]; rfl
    | succ k =>
      rw [List.take_succ_cons, matched, if_pos hb, ih, List.length_cons, Nat.succ_min_succ]

/-- The bounds of the bytes after a first byte. -/
theorem continuation?_ofNat {n : Nat} (hn : n < 256) : continuation? (UInt8.ofNat n) =
    if n ≤ 0x7F then some []
    else if n ≤ 0xC1 then none
    else if n ≤ 0xDF then some [(0x80, 0xBF)]
    else if n = 0xE0 then some [(0xA0, 0xBF), (0x80, 0xBF)]
    else if n = 0xED then some [(0x80, 0x9F), (0x80, 0xBF)]
    else if n ≤ 0xEF then some [(0x80, 0xBF), (0x80, 0xBF)]
    else if n = 0xF0 then some [(0x90, 0xBF), (0x80, 0xBF), (0x80, 0xBF)]
    else if n ≤ 0xF3 then some [(0x80, 0xBF), (0x80, 0xBF), (0x80, 0xBF)]
    else if n = 0xF4 then some [(0x80, 0x8F), (0x80, 0xBF), (0x80, 0xBF)]
    else none := by
  have hbyte : (UInt8.ofNat n).toNat = n := UInt8.toNat_ofNat_of_lt' hn
  simp only [continuation?, UInt8.le_iff_toNat_le, ← UInt8.toNat_inj, hbyte]
  rfl

theorem within_nil : Within [] [] := List.Forall₂.nil

theorem within_cons (least greatest : Nat) {k : Nat} {bounds : List Bounds} {tail : Octets}
    (hleast : least ≤ k) (hgreatest : k ≤ greatest) (hbyte : greatest < 256)
    (htail : Within bounds tail) :
    Within ((UInt8.ofNat least, UInt8.ofNat greatest) :: bounds) (UInt8.ofNat k :: tail) := by
  refine List.Forall₂.cons ⟨UInt8.le_iff_toNat_le.2 ?_, UInt8.le_iff_toNat_le.2 ?_⟩ htail
  · rw [UInt8.toNat_ofNat_of_lt' (show least < 256 by omega),
      UInt8.toNat_ofNat_of_lt' (show k < 256 by omega)]
    exact hleast
  · rw [UInt8.toNat_ofNat_of_lt' (show k < 256 by omega), UInt8.toNat_ofNat_of_lt' hbyte]
    exact hgreatest

theorem isGroup_one {n : Nat} (hn : n ≤ 0x7F) : IsGroup n (UInt8.ofNat n) [] := by
  refine ⟨⟨[], ?_, within_nil⟩, UInt8.toNat_ofNat_of_lt' (show n < 256 by omega)⟩
  rw [continuation?_ofNat (by omega), if_pos hn]

theorem isGroup_two {n : Nat} (hleast : 0x80 ≤ n) (hn : n ≤ 0x7FF) :
    IsGroup n (UInt8.ofNat (n / 64 % 32 + 192)) [UInt8.ofNat (n % 64 + 128)] := by
  constructor
  · refine ⟨_, ?_, within_cons 0x80 0xBF (by omega) (by omega) (by decide) within_nil⟩
    rw [continuation?_ofNat (by omega), if_neg (by omega), if_neg (by omega), if_pos (by omega)]
    rfl
  · show 64 * ((UInt8.ofNat (n / 64 % 32 + 192)).toNat % 32) +
      (UInt8.ofNat (n % 64 + 128)).toNat % 64 = n
    rw [UInt8.toNat_ofNat_of_lt' (show _ < 256 by omega),
      UInt8.toNat_ofNat_of_lt' (show _ < 256 by omega)]
    omega

/-- The first byte fixes the range of the second: no shorter form, no surrogate. -/
theorem isGroup_three {n : Nat} (hleast : 0x800 ≤ n) (hn : n ≤ 0xFFFF)
    (hchar : n < 0xD800 ∨ 0xDFFF < n) :
    IsGroup n (UInt8.ofNat (n / 4096 % 16 + 224))
      [UInt8.ofNat (n / 64 % 64 + 128), UInt8.ofNat (n % 64 + 128)] := by
  have hlast : Within [(0x80, 0xBF)] [UInt8.ofNat (n % 64 + 128)] :=
    within_cons 0x80 0xBF (by omega) (by omega) (by decide) within_nil
  constructor
  · rw [continuation?_ofNat (by omega), if_neg (by omega), if_neg (by omega), if_neg (by omega)]
    by_cases hlow : n < 0x1000
    · rw [if_pos (by omega)]
      exact ⟨_, rfl, within_cons 0xA0 0xBF (by omega) (by omega) (by decide) hlast⟩
    rw [if_neg (by omega)]
    by_cases hhigh : 0xD000 ≤ n ∧ n < 0xE000
    · rw [if_pos (by omega)]
      exact ⟨_, rfl, within_cons 0x80 0x9F (by omega) (by omega) (by decide) hlast⟩
    · rw [if_neg (by omega), if_pos (by omega)]
      exact ⟨_, rfl, within_cons 0x80 0xBF (by omega) (by omega) (by decide) hlast⟩
  · show 64 * (64 * ((UInt8.ofNat (n / 4096 % 16 + 224)).toNat % 16) +
      (UInt8.ofNat (n / 64 % 64 + 128)).toNat % 64) + (UInt8.ofNat (n % 64 + 128)).toNat % 64 = n
    rw [UInt8.toNat_ofNat_of_lt' (show _ < 256 by omega),
      UInt8.toNat_ofNat_of_lt' (show _ < 256 by omega),
      UInt8.toNat_ofNat_of_lt' (show _ < 256 by omega)]
    omega

/-- The first byte fixes the range of the second: no shorter form, no larger code
point. -/
theorem isGroup_four {n : Nat} (hleast : 0xFFFF < n) (hn : n < 0x110000) :
    IsGroup n (UInt8.ofNat (n / 262144 % 8 + 240))
      [UInt8.ofNat (n / 4096 % 64 + 128), UInt8.ofNat (n / 64 % 64 + 128),
        UInt8.ofNat (n % 64 + 128)] := by
  have hlast : Within [(0x80, 0xBF), (0x80, 0xBF)]
      [UInt8.ofNat (n / 64 % 64 + 128), UInt8.ofNat (n % 64 + 128)] :=
    within_cons 0x80 0xBF (by omega) (by omega) (by decide)
      (within_cons 0x80 0xBF (by omega) (by omega) (by decide) within_nil)
  constructor
  · rw [continuation?_ofNat (by omega), if_neg (by omega), if_neg (by omega), if_neg (by omega),
      if_neg (by omega), if_neg (by omega), if_neg (by omega)]
    by_cases hlow : n < 0x40000
    · rw [if_pos (by omega)]
      exact ⟨_, rfl, within_cons 0x90 0xBF (by omega) (by omega) (by decide) hlast⟩
    rw [if_neg (by omega)]
    by_cases hhigh : n < 0x100000
    · rw [if_pos (by omega)]
      exact ⟨_, rfl, within_cons 0x80 0xBF (by omega) (by omega) (by decide) hlast⟩
    · rw [if_neg (by omega), if_pos (by omega)]
      exact ⟨_, rfl, within_cons 0x80 0x8F (by omega) (by omega) (by decide) hlast⟩
  · show 64 * (64 * (64 * ((UInt8.ofNat (n / 262144 % 8 + 240)).toNat % 8) +
      (UInt8.ofNat (n / 4096 % 64 + 128)).toNat % 64) +
      (UInt8.ofNat (n / 64 % 64 + 128)).toNat % 64) + (UInt8.ofNat (n % 64 + 128)).toNat % 64 = n
    rw [UInt8.toNat_ofNat_of_lt' (show _ < 256 by omega),
      UInt8.toNat_ofNat_of_lt' (show _ < 256 by omega),
      UInt8.toNat_ofNat_of_lt' (show _ < 256 by omega),
      UInt8.toNat_ofNat_of_lt' (show _ < 256 by omega)]
    omega

/-- The bytes of a character are a well-formed group. -/
theorem exists_isGroup (c : Char) :
    ∃ first tail, String.utf8EncodeChar c = first :: tail ∧ IsGroup c.toNat first tail := by
  have hchar : c.toNat < 0xD800 ∨ 0xDFFF < c.toNat ∧ c.toNat < 0x110000 := c.valid
  have hvalue : c.val.toNat = c.toNat := rfl
  unfold String.utf8EncodeChar
  simp only [hvalue]
  by_cases hone : c.toNat ≤ 0x7F
  · exact ⟨_, _, if_pos hone, isGroup_one hone⟩
  by_cases htwo : c.toNat ≤ 0x7FF
  · rw [if_neg hone, if_pos htwo]
    exact ⟨_, _, rfl, isGroup_two (by omega) htwo⟩
  by_cases hthree : c.toNat ≤ 0xFFFF
  · rw [if_neg hone, if_neg htwo, if_pos hthree]
    exact ⟨_, _, rfl, isGroup_three (by omega) hthree (by omega)⟩
  · rw [if_neg hone, if_neg htwo, if_neg hthree]
    exact ⟨_, _, rfl, isGroup_four (by omega) (by omega)⟩

/-! ### Reading whole and cut characters -/

/-- A well-formed group is read as its character. -/
theorem IsGroup.group_eq {c : Char} {first : UInt8} {tail : Octets}
    (h : IsGroup c.toNat first tail) (rest : Octets) :
    group first (tail ++ rest) = (some c, tail.length) := by
  obtain ⟨bounds, hbounds, hwithin⟩ := h.within
  have hlength : bounds.length = tail.length := hwithin.length_eq
  unfold group
  rw [hbounds]
  simp only
  rw [matched_append hwithin, if_pos hlength.symm, List.take_left' rfl, h.value, Char.ofNat_toNat]

/-- A group that ends too early is read as one ill-formed group. -/
theorem IsGroup.group_take {n : Nat} {first : UInt8} {tail : Octets} (h : IsGroup n first tail)
    {k : Nat} (hk : k < tail.length) : group first (tail.take k) = (none, k) := by
  obtain ⟨bounds, hbounds, hwithin⟩ := h.within
  have hlength : bounds.length = tail.length := hwithin.length_eq
  unfold group
  rw [hbounds]
  simp only
  rw [matched_take hwithin, Nat.min_eq_left (Nat.le_of_lt hk), if_neg (by omega)]

/-- A character that is written is read first. -/
theorem decodeLossy_encodeChar_append (c : Char) (rest : Octets) :
    decodeLossy (String.utf8EncodeChar c ++ rest) = c :: decodeLossy rest := by
  obtain ⟨first, tail, hbytes, hgroup⟩ := exists_isGroup c
  rw [hbytes, List.cons_append, decodeLossy, hgroup.group_eq, Option.getD_some,
    List.drop_left' rfl]

/-- What is left of a character that is cut is read as a single U+FFFD. -/
theorem decodeLossy_take_encodeChar {c : Char} {k : Nat} (hpos : 0 < k) (hk : k < c.utf8Size) :
    decodeLossy ((String.utf8EncodeChar c).take k) = [replacement] := by
  obtain ⟨first, tail, hbytes, hgroup⟩ := exists_isGroup c
  have hsize : tail.length + 1 = c.utf8Size := by
    rw [← String.length_utf8EncodeChar, hbytes, List.length_cons]
  obtain ⟨k, rfl⟩ := Nat.exists_eq_succ_of_ne_zero (Nat.ne_of_gt hpos)
  rw [hbytes, List.take_succ_cons, decodeLossy, hgroup.group_take (by omega), Option.getD_none,
    List.drop_eq_nil_of_le (List.length_take_le k tail), decodeLossy]

/-! ### Reading well-formed groups only -/

theorem within_of_matched {bounds : List Bounds} {rest : Octets}
    (h : matched bounds rest = bounds.length) : Within bounds (rest.take bounds.length) := by
  induction bounds generalizing rest with
  | nil => exact within_nil
  | cons limits bounds ih =>
    cases rest with
    | nil =>
      rw [matched] at h
      · cases h
      · exact fun _ _ _ _ _ h => nomatch h
    | cons b rest =>
      rw [matched] at h
      by_cases hb : limits.1 ≤ b ∧ b ≤ limits.2
      · rw [if_pos hb] at h
        exact List.Forall₂.cons hb (ih (Nat.succ.inj h))
      · rw [if_neg hb] at h
        cases h

section Bounded

variable (least greatest : Nat) (hbyte : least < 256 ∧ greatest < 256) {tail : Octets}
include hbyte

theorem exists_of_within_cons {bounds : List Bounds}
    (h : Within ((UInt8.ofNat least, UInt8.ofNat greatest) :: bounds) tail) :
    ∃ b rest, tail = b :: rest ∧ (least ≤ b.toNat ∧ b.toNat ≤ greatest) ∧ Within bounds rest := by
  obtain ⟨b, rest, ⟨hleast, hgreatest⟩, hrest, rfl⟩ := List.forall₂_cons_left_iff.1 h
  rw [UInt8.le_iff_toNat_le, UInt8.toNat_ofNat_of_lt' hbyte.1] at hleast
  rw [UInt8.le_iff_toNat_le, UInt8.toNat_ofNat_of_lt' hbyte.2] at hgreatest
  exact ⟨b, rest, rfl, ⟨hleast, hgreatest⟩, hrest⟩

theorem exists_of_within_one (h : Within [(UInt8.ofNat least, UInt8.ofNat greatest)] tail) :
    ∃ b, tail = [b] ∧ least ≤ b.toNat ∧ b.toNat ≤ greatest := by
  obtain ⟨b, rest, rfl, hb, hrest⟩ := exists_of_within_cons least greatest hbyte h
  rw [List.forall₂_nil_left_iff.1 hrest]
  exact ⟨b, rfl, hb⟩

theorem exists_of_within_two
    (h : Within [(UInt8.ofNat least, UInt8.ofNat greatest), (0x80, 0xBF)] tail) :
    ∃ b c, tail = [b, c] ∧ (least ≤ b.toNat ∧ b.toNat ≤ greatest) ∧
      0x80 ≤ c.toNat ∧ c.toNat ≤ 0xBF := by
  obtain ⟨b, rest, rfl, hb, hrest⟩ := exists_of_within_cons least greatest hbyte h
  obtain ⟨c, rfl, hc⟩ := exists_of_within_one 0x80 0xBF (by decide) hrest
  exact ⟨b, c, rfl, hb, hc⟩

theorem exists_of_within_three
    (h : Within [(UInt8.ofNat least, UInt8.ofNat greatest), (0x80, 0xBF), (0x80, 0xBF)] tail) :
    ∃ b c d, tail = [b, c, d] ∧ (least ≤ b.toNat ∧ b.toNat ≤ greatest) ∧
      (0x80 ≤ c.toNat ∧ c.toNat ≤ 0xBF) ∧ 0x80 ≤ d.toNat ∧ d.toNat ≤ 0xBF := by
  obtain ⟨b, rest, rfl, hb, hrest⟩ := exists_of_within_cons least greatest hbyte h
  obtain ⟨c, d, rfl, hc, hd⟩ := exists_of_within_two 0x80 0xBF (by decide) hrest
  exact ⟨b, c, d, rfl, hb, hc, hd⟩

end Bounded

/-- The bytes of a character with this code point. -/
theorem encodeChar_ofNat {n : Nat} (h : n < 0xD800 ∨ 0xDFFF < n ∧ n < 0x110000) :
    String.utf8EncodeChar (Char.ofNat n) =
      if n ≤ 0x7F then [UInt8.ofNat n]
      else if n ≤ 0x7FF then [UInt8.ofNat (n / 64 % 32 + 192), UInt8.ofNat (n % 64 + 128)]
      else if n ≤ 0xFFFF then [UInt8.ofNat (n / 4096 % 16 + 224), UInt8.ofNat (n / 64 % 64 + 128),
        UInt8.ofNat (n % 64 + 128)]
      else [UInt8.ofNat (n / 262144 % 8 + 240), UInt8.ofNat (n / 4096 % 64 + 128),
        UInt8.ofNat (n / 64 % 64 + 128), UInt8.ofNat (n % 64 + 128)] := by
  have hvalue : (Char.ofNat n).val.toNat = n := by
    rw [Char.ofNat, dif_pos h]
    rfl
  unfold String.utf8EncodeChar
  simp only [hvalue]

theorem ofNat_eq_of_toNat {n : Nat} {b : UInt8} (h : n = b.toNat) : UInt8.ofNat n = b := by
  rw [h, UInt8.ofNat_toNat]

theorem encodeChar_one {first : UInt8} (hfirst : first.toNat ≤ 0x7F) :
    String.utf8EncodeChar (Char.ofNat (codePoint first [])) = [first] := by
  have hvalue : codePoint first [] = first.toNat := rfl
  rw [hvalue, encodeChar_ofNat (by omega), if_pos hfirst, UInt8.ofNat_toNat]

theorem encodeChar_two {first b : UInt8} (hfirst : 0xC2 ≤ first.toNat ∧ first.toNat ≤ 0xDF)
    (hb : 0x80 ≤ b.toNat ∧ b.toNat ≤ 0xBF) :
    String.utf8EncodeChar (Char.ofNat (codePoint first [b])) = [first, b] := by
  have hvalue : codePoint first [b] = 64 * (first.toNat % 32) + b.toNat % 64 := rfl
  rw [hvalue, encodeChar_ofNat (by omega), if_neg (by omega), if_pos (by omega),
    ofNat_eq_of_toNat (b := first) (by omega), ofNat_eq_of_toNat (b := b) (by omega)]

/-- Three bytes that are no shorter form and no surrogate. -/
theorem encodeChar_three {first b c : UInt8} (hfirst : 0xE0 ≤ first.toNat ∧ first.toNat ≤ 0xEF)
    (hb : 0x80 ≤ b.toNat ∧ b.toNat ≤ 0xBF) (hc : 0x80 ≤ c.toNat ∧ c.toNat ≤ 0xBF)
    (hleast : first.toNat = 0xE0 → 0xA0 ≤ b.toNat) (hchar : first.toNat = 0xED → b.toNat ≤ 0x9F) :
    String.utf8EncodeChar (Char.ofNat (codePoint first [b, c])) = [first, b, c] := by
  have hvalue : codePoint first [b, c] =
      64 * (64 * (first.toNat % 16) + b.toNat % 64) + c.toNat % 64 := rfl
  rw [hvalue, encodeChar_ofNat (by omega), if_neg (by omega), if_neg (by omega), if_pos (by omega),
    ofNat_eq_of_toNat (b := first) (by omega), ofNat_eq_of_toNat (b := b) (by omega),
    ofNat_eq_of_toNat (b := c) (by omega)]

/-- Four bytes that are no shorter form and no larger code point. -/
theorem encodeChar_four {first b c d : UInt8} (hfirst : 0xF0 ≤ first.toNat ∧ first.toNat ≤ 0xF4)
    (hb : 0x80 ≤ b.toNat ∧ b.toNat ≤ 0xBF) (hc : 0x80 ≤ c.toNat ∧ c.toNat ≤ 0xBF)
    (hd : 0x80 ≤ d.toNat ∧ d.toNat ≤ 0xBF)
    (hleast : first.toNat = 0xF0 → 0x90 ≤ b.toNat) (hlast : first.toNat = 0xF4 → b.toNat ≤ 0x8F) :
    String.utf8EncodeChar (Char.ofNat (codePoint first [b, c, d])) = [first, b, c, d] := by
  have hvalue : codePoint first [b, c, d] =
      64 * (64 * (64 * (first.toNat % 8) + b.toNat % 64) + c.toNat % 64) + d.toNat % 64 := rfl
  rw [hvalue, encodeChar_ofNat (by omega), if_neg (by omega), if_neg (by omega), if_neg (by omega),
    ofNat_eq_of_toNat (b := first) (by omega), ofNat_eq_of_toNat (b := b) (by omega),
    ofNat_eq_of_toNat (b := c) (by omega), ofNat_eq_of_toNat (b := d) (by omega)]

/-- A well-formed group is that of its character, so a character has one. -/
theorem IsGroup.encodeChar_eq {n : Nat} {first : UInt8} {tail : Octets} (h : IsGroup n first tail) :
    String.utf8EncodeChar (Char.ofNat n) = first :: tail := by
  obtain ⟨⟨bounds, hbounds, hwithin⟩, rfl⟩ := h
  have hbyte := continuation?_ofNat first.toNat_lt
  rw [UInt8.ofNat_toNat, hbounds] at hbyte
  -- The first byte fixes the bounds of the bytes after it, of the second one above all.
  split at hbyte
  · obtain rfl := Option.some.inj hbyte
    obtain rfl := List.forall₂_nil_left_iff.1 hwithin
    exact encodeChar_one (by assumption)
  split at hbyte
  · cases hbyte
  split at hbyte
  · obtain rfl := Option.some.inj hbyte
    obtain ⟨b, rfl, hb⟩ := exists_of_within_one 0x80 0xBF (by decide) hwithin
    exact encodeChar_two (by omega) hb
  split at hbyte
  · obtain rfl := Option.some.inj hbyte
    obtain ⟨b, c, rfl, hb, hc⟩ := exists_of_within_two 0xA0 0xBF (by decide) hwithin
    exact encodeChar_three (by omega) (by omega) hc (by omega) (by omega)
  split at hbyte
  · obtain rfl := Option.some.inj hbyte
    obtain ⟨b, c, rfl, hb, hc⟩ := exists_of_within_two 0x80 0x9F (by decide) hwithin
    exact encodeChar_three (by omega) (by omega) hc (by omega) (by omega)
  split at hbyte
  · obtain rfl := Option.some.inj hbyte
    obtain ⟨b, c, rfl, hb, hc⟩ := exists_of_within_two 0x80 0xBF (by decide) hwithin
    exact encodeChar_three (by omega) (by omega) hc (by omega) (by omega)
  split at hbyte
  · obtain rfl := Option.some.inj hbyte
    obtain ⟨b, c, d, rfl, hb, hc, hd⟩ := exists_of_within_three 0x90 0xBF (by decide) hwithin
    exact encodeChar_four (by omega) (by omega) hc hd (by omega) (by omega)
  split at hbyte
  · obtain rfl := Option.some.inj hbyte
    obtain ⟨b, c, d, rfl, hb, hc, hd⟩ := exists_of_within_three 0x80 0xBF (by decide) hwithin
    exact encodeChar_four (by omega) (by omega) hc hd (by omega) (by omega)
  split at hbyte
  · obtain rfl := Option.some.inj hbyte
    obtain ⟨b, c, d, rfl, hb, hc, hd⟩ := exists_of_within_three 0x80 0x8F (by decide) hwithin
    exact encodeChar_four (by omega) (by omega) hc hd (by omega) (by omega)
  · cases hbyte

/-- A group is read as a character exactly if it has the bytes of that character. -/
theorem encodeChar_of_group {c : Char} {first : UInt8} {rest : Octets}
    (h : (group first rest).1 = some c) :
    String.utf8EncodeChar c = first :: rest.take (group first rest).2 := by
  unfold group at h ⊢
  cases hbounds : continuation? first with
  | none =>
    rw [hbounds] at h
    cases h
  | some bounds =>
    rw [hbounds] at h
    simp only at h ⊢
    by_cases hmatched : matched bounds rest = bounds.length
    · rw [if_pos hmatched] at h ⊢
      obtain rfl := Option.some.inj h
      have hgroup : IsGroup _ first (rest.take bounds.length) :=
        ⟨⟨bounds, hbounds, within_of_matched hmatched⟩, rfl⟩
      rw [hmatched]
      exact hgroup.encodeChar_eq
    · rw [if_neg hmatched] at h
      cases h

theorem decode?_encode (cs : List Char) : decode? (encode cs) = some cs := by
  induction cs with
  | nil => exact decode?.eq_1
  | cons c cs ih =>
    obtain ⟨first, tail, hbytes, hgroup⟩ := exists_isGroup c
    have hencode : encode (c :: cs) = first :: (tail ++ encode cs) := by
      rw [encode, List.flatMap_cons, hbytes]
      rfl
    rw [hencode, decode?, hgroup.group_eq]
    simp only
    rw [List.drop_left' rfl, ih, Option.map_some]

/-- The bytes of a text are the only ones that are read as it. -/
theorem decode?_eq_some_iff {bytes : Octets} {cs : List Char} :
    decode? bytes = some cs ↔ bytes = encode cs := by
  refine ⟨fun h => ?_, fun h => h ▸ decode?_encode cs⟩
  fun_induction decode? bytes generalizing cs with
  | case1 =>
    obtain rfl := Option.some.inj h
    rfl
  | case2 => cases h
  | case3 first rest c hc ih =>
    obtain ⟨cs, hcs, rfl⟩ := Option.map_eq_some_iff.1 h
    have hrest := ih hcs
    rw [encode, List.flatMap_cons, encodeChar_of_group hc]
    rw [encode] at hrest
    rw [← hrest, List.cons_append, List.take_append_drop]

theorem zero_ne_ofNat {k : Nat} (hpos : 0 < k) (hk : k < 256) : 0 ≠ UInt8.ofNat k := by
  intro h
  have hzero : (UInt8.ofNat k).toNat = 0 := by
    rw [← h]
    rfl
  rw [UInt8.toNat_ofNat_of_lt' hk] at hzero
  omega

/-- Only the character NUL has a zero byte. -/
theorem zero_notMem_encodeChar {c : Char} (hc : c ≠ '\x00') : 0 ∉ String.utf8EncodeChar c := by
  have hpos : 0 < c.val.toNat := Nat.pos_of_ne_zero fun hzero =>
    hc (Char.ext (UInt32.toNat_inj.1 hzero))
  unfold String.utf8EncodeChar
  simp only
  split
  · rw [List.mem_singleton]
    exact zero_ne_ofNat hpos (by omega)
  split
  · simp only [List.mem_cons, List.not_mem_nil, or_false, not_or]
    exact ⟨zero_ne_ofNat (by omega) (by omega), zero_ne_ofNat (by omega) (by omega)⟩
  split
  · simp only [List.mem_cons, List.not_mem_nil, or_false, not_or]
    exact ⟨zero_ne_ofNat (by omega) (by omega), zero_ne_ofNat (by omega) (by omega),
      zero_ne_ofNat (by omega) (by omega)⟩
  · simp only [List.mem_cons, List.not_mem_nil, or_false, not_or]
    exact ⟨zero_ne_ofNat (by omega) (by omega), zero_ne_ofNat (by omega) (by omega),
      zero_ne_ofNat (by omega) (by omega), zero_ne_ofNat (by omega) (by omega)⟩

theorem zero_notMem_encode {cs : List Char} (h : '\x00' ∉ cs) : 0 ∉ encode cs := by
  intro hzero
  obtain ⟨c, hc, hbyte⟩ := List.mem_flatMap.1 hzero
  exact zero_notMem_encodeChar (fun hnul => h (hnul ▸ hc)) hbyte

/-! ### Texts that are cut -/

/-- A cut after `room` bytes is between two characters, or leaves the text whole. -/
def CutsCleanly (room : Nat) (cs : List Char) : Prop :=
  ∃ kept, kept <+: cs ∧ size kept = min room (size cs)

end Utf8

/-- Nothing at the start that fits is longer than what is kept. -/
theorem isPrefix_fitting {room : Nat} {cs kept : List Char} (hkept : kept <+: cs)
    (hsize : Utf8.size kept ≤ room) : kept <+: fitting room cs := by
  induction cs generalizing room kept with
  | nil => exact hkept
  | cons c cs ih =>
    cases kept with
    | nil => exact List.nil_prefix
    | cons d kept =>
      obtain ⟨rfl, htail⟩ := List.cons_prefix_cons.1 hkept
      rw [Utf8.size] at hsize
      rw [fitting, if_pos (by omega)]
      exact List.cons_prefix_cons.2 ⟨rfl, ih htail (by omega)⟩

namespace Utf8

theorem size_append (a b : List Char) : size (a ++ b) = size a + size b := by
  induction a with
  | nil => rw [List.nil_append, size, Nat.zero_add]
  | cons c a ih => rw [List.cons_append, size, size, ih, Nat.add_assoc]

theorem size_le_of_isPrefix {a b : List Char} (h : a <+: b) : size a ≤ size b := by
  obtain ⟨c, rfl⟩ := h
  rw [size_append]
  exact Nat.le_add_right _ _

/-- A cut is clean exactly if the characters that fit fill the room. -/
theorem cutsCleanly_iff (room : Nat) (cs : List Char) :
    CutsCleanly room cs ↔ size (fitting room cs) = min room (size cs) := by
  have hle : size (fitting room cs) ≤ min room (size cs) :=
    Nat.le_min.2 ⟨size_fitting_le room cs, size_le_of_isPrefix (fitting_isPrefix room cs)⟩
  constructor
  · rintro ⟨kept, hkept, hsize⟩
    have hfits : size kept ≤ room := by omega
    have := size_le_of_isPrefix (isPrefix_fitting hkept hfits)
    omega
  · exact fun hsize => ⟨fitting room cs, fitting_isPrefix room cs, hsize⟩

/-- Of a text that is cut the characters that fit are read, and U+FFFD after them if
the cut is within a character. -/
theorem decodeLossy_take_encode (room : Nat) (cs : List Char) :
    decodeLossy ((encode cs).take room) =
      if size (fitting room cs) = min room (size cs) then fitting room cs
      else fitting room cs ++ [replacement] := by
  induction cs generalizing room with
  | nil =>
    have hnone : size [] = min room (size []) := (Nat.min_zero room).symm
    rw [encode, List.flatMap_nil, List.take_nil, decodeLossy, fitting, if_pos hnone]
  | cons c cs ih =>
    have hc : (String.utf8EncodeChar c).length = c.utf8Size := String.length_utf8EncodeChar c
    have hencode : encode (c :: cs) = String.utf8EncodeChar c ++ encode cs := List.flatMap_cons
    have hpos : 0 < c.utf8Size := c.utf8Size_pos
    by_cases hroom : c.utf8Size ≤ room
    · have hfitting : fitting room (c :: cs) = c :: fitting (room - c.utf8Size) cs := by
        rw [fitting, if_pos hroom]
      have hfull : size (c :: fitting (room - c.utf8Size) cs) = min room (size (c :: cs)) ↔
          size (fitting (room - c.utf8Size) cs) = min (room - c.utf8Size) (size cs) := by
        rw [size, size]
        omega
      rw [hencode, List.take_append, List.take_of_length_le (by omega), hc,
        decodeLossy_encodeChar_append, ih, hfitting]
      by_cases hclean : size (fitting (room - c.utf8Size) cs) = min (room - c.utf8Size) (size cs)
      · rw [if_pos hclean, if_pos (hfull.2 hclean)]
      · rw [if_neg hclean, if_neg (mt hfull.1 hclean), List.cons_append]
    · have hfitting : fitting room (c :: cs) = [] := by rw [fitting, if_neg hroom]
      rw [hencode, List.take_append_of_le_length (by omega), hfitting, size, size]
      by_cases hzero : room = 0
      · rw [hzero, List.take_zero, decodeLossy, if_pos (Nat.zero_min _).symm]
      · rw [decodeLossy_take_encodeChar (Nat.pos_of_ne_zero hzero) (by omega), if_neg (by omega),
          List.nil_append]

end Utf8
end SignalRegistry
