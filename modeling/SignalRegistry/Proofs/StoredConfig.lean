/-
# What a stored configuration says

A number is written in groups of seven bits. The shortest form is written, but a
reader takes a form with needless zero groups too, as long as it has no more bytes
than the size of the word asks for: so it reads exactly the forms of the numbers that
fit the word (`Varint.decode_eq_some_iff`). Of a text it reads one form only.

So the bytes of a configuration are its fields one after the other, each in one of its
forms, and whatever follows (`Config.Stores`). Those that `Config.encode` writes are among
them, and exactly these bytes are read as the configuration if it is valid
(`Config.decode_exact`); if not, the check that fails is the error.

Key definitions: `Varint.Writes`, `Config.Stores`.
Key theorems: `Varint.decode_eq_some_iff`, `Config.takeName_eq_some_iff`,
`Config.fields?_eq_some_iff`, `Config.decode_exact`.
-/
import Mathlib.Tactic.Ring
import SignalRegistry.Config.Binary
import SignalRegistry.Proofs.Utf8

namespace SignalRegistry

/-! ### Numbers in all their forms -/

namespace Varint

/-- The bytes write the number, seven bits each, the lowest first; every byte but the
last has its high bit set. -/
inductive Writes : Nat → Octets → Prop
  | last {b : UInt8} : b.toNat < 128 → Writes b.toNat [b]
  | more {b : UInt8} {high : Nat} {bytes : Octets} : 128 ≤ b.toNat → Writes high bytes →
    Writes (b.toNat % 128 + 128 * high) (b :: bytes)

/-- The bytes begin with a form of the number of at most `places` bytes, and the rest is
after it. -/
def BeginsWith (places n : Nat) (bytes rest : Octets) : Prop :=
  ∃ own, Writes n own ∧ own.length ≤ places ∧ bytes = own ++ rest

variable {last : UInt8} {places n : Nat} {b : UInt8} {bytes rest : Octets}

theorem not_beginsWith_nil : ¬ BeginsWith places n [] rest := by
  rintro ⟨own, hown, -, hbytes⟩
  cases hown <;> cases hbytes

theorem not_beginsWith_zero : ¬ BeginsWith 0 n bytes rest := by
  rintro ⟨own, hown, hlength, -⟩
  cases hown <;> cases hlength

/-- A form is its first byte, and a form of what is left if that has its high bit set. -/
theorem beginsWith_cons_iff : BeginsWith (places + 1) n (b :: bytes) rest ↔
    b.toNat < 128 ∧ n = b.toNat ∧ bytes = rest ∨
      128 ≤ b.toNat ∧ ∃ high, n = b.toNat % 128 + 128 * high ∧ BeginsWith places high bytes rest := by
  constructor
  · rintro ⟨own, hown, hlength, hbytes⟩
    cases hown with
    | last hb =>
      obtain ⟨rfl, rfl⟩ := List.cons.inj hbytes
      exact Or.inl ⟨hb, rfl, rfl⟩
    | more hb hhigh =>
      obtain ⟨rfl, rfl⟩ := List.cons.inj hbytes
      exact Or.inr ⟨hb, _, rfl, _, hhigh, Nat.le_of_succ_le_succ hlength, rfl⟩
  · rintro (⟨hb, rfl, rfl⟩ | ⟨hb, high, rfl, own, hown, hlength, rfl⟩)
    · exact ⟨[b], .last hb, Nat.le_add_left 1 places, rfl⟩
    · exact ⟨b :: own, .more hb hown, Nat.succ_le_succ hlength, rfl⟩

/-- A last byte is read if what it writes fits the word. -/
theorem decode_cons_of_lt (hb : b.toNat < 128) :
    decode last (places + 1) (b :: bytes) =
      if b.toNat < (last.toNat + 1) * Nat.pow 128 places then some (b.toNat, bytes) else none := by
  have hfits : (places = 0 ∧ last < b) ↔ ¬ b.toNat < (last.toNat + 1) * Nat.pow 128 places := by
    rw [UInt8.lt_iff_toNat_lt]
    cases places with
    | zero =>
      show _ ↔ ¬ b.toNat < (last.toNat + 1) * 1
      omega
    | succ places =>
      have hpos : 0 < (last.toNat + 1) * Nat.pow 128 places :=
        Nat.mul_pos (Nat.succ_pos _) (Nat.pow_pos (by decide))
      show _ ↔ ¬ b.toNat < (last.toNat + 1) * (Nat.pow 128 places * 128)
      rw [← Nat.mul_assoc]
      omega
  rw [decode, if_pos (UInt8.lt_iff_toNat_lt.2 hb)]
  simp only [hfits]
  exact ite_not _ _ _

/-- Any other byte is read with the number that the bytes after it write. -/
theorem decode_cons_of_ge (hb : 128 ≤ b.toNat) : decode last (places + 1) (b :: bytes) =
    (decode last places bytes).map fun (high, rest) => (b.toNat % 128 + 128 * high, rest) := by
  have hge : ¬ b < 128 := fun h => by
    rw [UInt8.lt_iff_toNat_lt] at h
    exact absurd h (Nat.not_lt.2 hb)
  rw [decode, if_neg hge]
  cases decode last places bytes <;> rfl

/-- What is read is a number that fits the word, in a form of at most so many bytes. -/
theorem decode_eq_some_iff : decode last (places + 1) bytes = some (n, rest) ↔
    BeginsWith (places + 1) n bytes rest ∧ n < (last.toNat + 1) * Nat.pow 128 places := by
  -- The number that is left when a byte is read has one place less.
  induction bytes generalizing places n with
  | nil => exact iff_of_false nofun fun h => not_beginsWith_nil h.1
  | cons b bytes ih =>
    rw [beginsWith_cons_iff]
    by_cases hb : b.toNat < 128
    · rw [decode_cons_of_lt hb]
      constructor
      · intro h
        obtain ⟨hfits, hpair⟩ := Option.ite_none_right_eq_some.1 h
        obtain ⟨rfl, rfl⟩ := Prod.mk.inj (Option.some.inj hpair)
        exact ⟨Or.inl ⟨hb, rfl, rfl⟩, hfits⟩
      · rintro ⟨⟨-, rfl, rfl⟩ | ⟨hge, -⟩, hfits⟩
        · exact if_pos hfits
        · exact absurd hb (Nat.not_lt.2 hge)
    · have hge : 128 ≤ b.toNat := Nat.le_of_not_lt hb
      rw [decode_cons_of_ge hge, Option.map_eq_some_iff]
      cases places with
      | zero =>
        refine iff_of_false (fun ⟨_, h, _⟩ => by cases bytes <;> cases h) ?_
        rintro ⟨⟨hlt, -⟩ | ⟨-, _, -, hhigh⟩, -⟩
        · exact hb hlt
        · exact not_beginsWith_zero hhigh
      | succ places =>
        have hpow : (last.toNat + 1) * Nat.pow 128 (places + 1) =
            128 * ((last.toNat + 1) * Nat.pow 128 places) := by
          show _ * (Nat.pow 128 places * 128) = _
          ring
        rw [hpow]
        constructor
        · rintro ⟨⟨high, rest'⟩, hhigh, hpair⟩
          obtain ⟨rfl, rfl⟩ := Prod.mk.inj hpair
          obtain ⟨hform, hfits⟩ := ih.1 hhigh
          exact ⟨Or.inr ⟨hge, high, rfl, hform⟩, by omega⟩
        · rintro ⟨⟨hlt, -⟩ | ⟨-, high, rfl, hform⟩, hfits⟩
          · exact absurd hlt hb
          · exact ⟨(high, rest), ih.2 ⟨hform, by omega⟩, rfl⟩

/-- The shortest form of a number that fits the word is one of those that are read. -/
theorem beginsWith_encode (last : UInt8) (hlast : last < 128)
    (hn : n < (last.toNat + 1) * Nat.pow 128 places) (rest : Octets) :
    BeginsWith (places + 1) n (encode n ++ rest) rest :=
  (decode_eq_some_iff.1 (decode_encode last hlast n rest places hn)).1

end Varint

/-! ### Configurations in all their forms -/

namespace Config

/-- The bytes hold the fields of the configuration in order: a name with its length, the
depth, the mask, and two switches. Whatever follows does not count. -/
def Stores (bytes : Octets) (c : Config) : Prop :=
  ∃ afterName rest,
    Varint.BeginsWith 10 (Utf8.encode c.defaultNetwork.chars).length bytes
      (Utf8.encode c.defaultNetwork.chars ++ afterName) ∧
    Varint.BeginsWith 5 c.queueDepth.toNat afterName
      ([c.eventMask.bits, c.removeEmptyNetworks.toUInt8, c.resizeBlocks.toUInt8] ++ rest)

theorem takeName_of_decode {bytes tail : Octets} {length : Nat}
    (h : Varint.decode 1 10 bytes = some (length, tail)) : takeName bytes =
      if tail.length < length then none
      else (Utf8.decode? (tail.take length)).bind fun cs =>
        if (Name.ofChars 24 cs).chars = cs then some (Name.ofChars 24 cs, tail.drop length)
        else none := by
  unfold takeName
  rw [h]
  rfl

/-- The bytes of a name are so few that a reader takes their number. -/
theorem length_encode_name_lt (name : Name 24) :
    (Utf8.encode name.chars).length < ((1 : UInt8).toNat + 1) * Nat.pow 128 9 := by
  have := name.size_chars_le
  rw [Utf8.length_encode]
  show _ < 2 * 9223372036854775808
  omega

/-- A name is read if it fits, in its own bytes with their number before them. -/
theorem takeName_eq_some_iff {bytes rest : Octets} {name : Name 24} :
    takeName bytes = some (name, rest) ↔
      Varint.BeginsWith 10 (Utf8.encode name.chars).length bytes (Utf8.encode name.chars ++ rest) := by
  constructor
  · intro h
    cases hdecode : Varint.decode 1 10 bytes with
    | none =>
      unfold takeName at h
      rw [hdecode] at h
      cases h
    | some read =>
      obtain ⟨length, tail⟩ := read
      rw [takeName_of_decode hdecode] at h
      obtain ⟨hroom, h⟩ := Option.ite_none_left_eq_some.1 h
      obtain ⟨cs, hcs, h⟩ := Option.bind_eq_some_iff.1 h
      obtain ⟨hchars, hpair⟩ := Option.ite_none_right_eq_some.1 h
      obtain ⟨rfl, rfl⟩ := Prod.mk.inj (Option.some.inj hpair)
      have hown : tail.take length = Utf8.encode cs := Utf8.decode?_eq_some_iff.1 hcs
      have hcount : (Utf8.encode cs).length = length := by
        rw [← hown, List.length_take_of_le (Nat.le_of_not_lt hroom)]
      rw [hchars, hcount, ← hown, List.take_append_drop]
      exact (Varint.decode_eq_some_iff.1 hdecode).1
  · intro h
    rw [takeName_of_decode (Varint.decode_eq_some_iff.2 ⟨h, length_encode_name_lt name⟩),
      if_neg (by rw [List.length_append]; omega), List.take_left' rfl, List.drop_left' rfl,
      Utf8.decode?_encode, Option.bind_some, Name.ofChars_chars, if_pos rfl]

/-- A switch is read from a byte 0 or 1. -/
theorem takeSwitch_eq_some_iff {bytes rest : Octets} {on : Bool} :
    takeSwitch bytes = some (on, rest) ↔ bytes = on.toUInt8 :: rest := by
  have hoff : false.toUInt8 = 0 := rfl
  have hon : true.toUInt8 = 1 := rfl
  unfold takeSwitch
  split
  · cases on <;> simp [hoff, hon]
  · cases on <;> simp [hoff, hon]
  · cases on <;> simp_all

/-- A depth has 32 bits, as a reader takes them. -/
theorem queueDepth_lt (c : Config) :
    c.queueDepth.toNat < ((0x0F : UInt8).toNat + 1) * Nat.pow 128 4 :=
  c.queueDepth.toNat_lt

/-- The fields that are read are those that the bytes store. -/
theorem fields?_eq_some_iff {bytes : Octets} {c : Config} :
    fields? bytes = some c ↔ Stores bytes c := by
  have hdepth {depth : Nat} (h : depth < ((0x0F : UInt8).toNat + 1) * Nat.pow 128 4) :
      (UInt32.ofNat depth).toNat = depth := UInt32.toNat_ofNat_of_lt' h
  constructor
  · intro h
    unfold fields? at h
    obtain ⟨⟨name, afterName⟩, hname, h⟩ := Option.bind_eq_some_iff.1 h
    obtain ⟨⟨depth, afterDepth⟩, hdepthRead, h⟩ := Option.bind_eq_some_iff.1 h
    obtain ⟨hform, hfits⟩ := Varint.decode_eq_some_iff.1 hdepthRead
    cases afterDepth with
    | nil => cases h
    | cons mask afterMask =>
      obtain ⟨⟨removeEmpty, afterSwitch⟩, hfirst, h⟩ := Option.bind_eq_some_iff.1 h
      obtain ⟨⟨resize, rest⟩, hsecond, h⟩ := Option.bind_eq_some_iff.1 h
      obtain rfl := Option.some.inj h
      obtain rfl := takeSwitch_eq_some_iff.1 hfirst
      obtain rfl := takeSwitch_eq_some_iff.1 hsecond
      refine ⟨afterName, rest, takeName_eq_some_iff.1 hname, ?_⟩
      rw [hdepth hfits]
      exact hform
  · rintro ⟨afterName, rest, hname, hform⟩
    have hnameRead : takeName bytes = some (c.defaultNetwork, afterName) :=
      takeName_eq_some_iff.2 hname
    have hdepthRead : Varint.decode 0x0F 5 afterName = some (c.queueDepth.toNat,
        c.eventMask.bits :: c.removeEmptyNetworks.toUInt8 :: c.resizeBlocks.toUInt8 :: rest) :=
      Varint.decode_eq_some_iff.2 ⟨hform, c.queueDepth_lt⟩
    simp only [fields?, hnameRead, hdepthRead, takeSwitch_eq_some_iff.2 rfl, Option.bind_eq_bind,
      Option.bind_some, UInt32.ofNat_toNat]
    rfl

/-- The bytes that store a configuration hold it, whatever follows. -/
theorem stores_encode (c : Config) (rest : Octets) : Stores (c.encode ++ rest) c := by
  have hname := Varint.beginsWith_encode 1 (by decide) (length_encode_name_lt c.defaultNetwork)
    (Utf8.encode c.defaultNetwork.chars ++ (Varint.encode c.queueDepth.toNat ++
      ([c.eventMask.bits, c.removeEmptyNetworks.toUInt8, c.resizeBlocks.toUInt8] ++ rest)))
  have hdepth := Varint.beginsWith_encode 0x0F (by decide) c.queueDepth_lt
  refine ⟨_, rest, ?_, hdepth _⟩
  simpa only [encode, List.append_assoc] using hname

/-- Bytes that store a configuration are read as it if it is valid. -/
theorem decode_of_stores {bytes : Octets} {c : Config} (h : Stores bytes c) :
    decode bytes = c.check.map fun _ => c := by
  unfold decode
  rw [fields?_eq_some_iff.2 h]
  show (c.check >>= fun _ => pure c) = _
  cases c.check <;> rfl

theorem decode_of_not_stores {bytes : Octets} (h : ∀ c, ¬ Stores bytes c) :
    decode bytes = .error .corrupted := by
  unfold decode
  cases hfields : fields? bytes with
  | none => rfl
  | some c => exact absurd (fields?_eq_some_iff.1 hfields) (h c)

theorem decode_eq_ok_iff {bytes : Octets} {c : Config} :
    decode bytes = .ok c ↔ Stores bytes c ∧ c.check = .ok () := by
  constructor
  · intro h
    by_cases hstores : ∃ c', Stores bytes c'
    · obtain ⟨c', hc'⟩ := hstores
      rw [decode_of_stores hc'] at h
      cases hcheck : c'.check with
      | error fault =>
        rw [hcheck] at h
        cases h
      | ok =>
        rw [hcheck] at h
        obtain rfl := Except.ok.inj h
        exact ⟨hc', hcheck⟩
    · rw [decode_of_not_stores (not_exists.1 hstores)] at h
      cases h
  · rintro ⟨hstores, hcheck⟩
    rw [decode_of_stores hstores, hcheck]
    rfl

/-- A field that is not allowed is never taken for bytes that are no configuration. -/
theorem check_ne_corrupted (c : Config) : c.check ≠ .error .corrupted := by
  unfold check
  split_ifs <;> nofun

theorem decode_eq_corrupted_iff {bytes : Octets} :
    decode bytes = .error .corrupted ↔ ∀ c, ¬ Stores bytes c := by
  refine ⟨fun h c hstores => ?_, decode_of_not_stores⟩
  rw [decode_of_stores hstores] at h
  cases hcheck : c.check with
  | error fault =>
    rw [hcheck] at h
    exact check_ne_corrupted c (hcheck.trans (congrArg Except.error (Except.error.inj h)))
  | ok =>
    rw [hcheck] at h
    cases h

/-- **A stored configuration is read as it was stored.** What a configuration is stored
as, with whatever follows, is read as it, or its own fault is the error. Besides these
bytes, exactly those that hold a valid configuration in another form are read; it is
stored and read again unchanged. -/
theorem decode_exact :
    (∀ (c : Config) (rest : Octets), Stores (c.encode ++ rest) c ∧
      decode (c.encode ++ rest) = c.check.map fun _ => c) ∧
    (∀ bytes : Octets, decode bytes = .error .corrupted ↔ ∀ c, ¬ Stores bytes c) ∧
    ∀ (bytes : Octets) (c : Config), (decode bytes = .ok c ↔ Stores bytes c ∧ c.check = .ok ()) ∧
      (decode bytes = .ok c → c.check = .ok () ∧ ∀ rest, decode (c.encode ++ rest) = .ok c) := by
  refine ⟨fun c rest => ⟨stores_encode c rest, decode_of_stores (stores_encode c rest)⟩,
    fun bytes => decode_eq_corrupted_iff, fun bytes c => ⟨decode_eq_ok_iff, fun h => ?_⟩⟩
  have hcheck : c.check = .ok () := (decode_eq_ok_iff.1 h).2
  exact ⟨hcheck, fun rest => decode_eq_ok_iff.2 ⟨stores_encode c rest, hcheck⟩⟩

/-- A network with a name of one letter, and a depth of 2. -/
def brief : Config where
  defaultNetwork := .ofChars 24 ['n']
  queueDepth := 2
  eventMask := ⟨6⟩
  removeEmptyNetworks := true
  resizeBlocks := false

/-- The same with needless zero groups in both numbers, and a byte too many. -/
def padded : Octets := [0x81, 0x00, 0x6E, 0x82, 0x80, 0x00, 6, 1, 0, 99]

theorem stores_padded : Stores padded brief := by
  have hlength : Varint.Writes 1 [0x81, 0x00] :=
    .more (b := 0x81) (by decide) (.last (b := 0x00) (by decide))
  have hdepth : Varint.Writes 2 [0x82, 0x80, 0x00] :=
    .more (b := 0x82) (by decide) (.more (b := 0x80) (by decide) (.last (b := 0x00) (by decide)))
  have hname : Utf8.encode brief.defaultNetwork.chars = [0x6E] := rfl
  refine ⟨[0x82, 0x80, 0x00, 6, 1, 0, 99], [99], ?_, _, hdepth, by decide, rfl⟩
  rw [hname]
  exact ⟨_, hlength, by decide, rfl⟩

theorem decode_exact_padded : decode padded = .ok brief ∧
    brief.encode = [1, 0x6E, 2, 6, 1, 0] ∧ decode brief.encode = .ok brief := by
  have hread : decode padded = .ok brief :=
    (decode_exact.2.2 padded brief).1.2 ⟨stores_padded, by decide⟩
  have hagain : decode (brief.encode ++ []) = .ok brief :=
    ((decode_exact.2.2 padded brief).2 hread).2 []
  have hname : Utf8.encode brief.defaultNetwork.chars = [0x6E] := rfl
  refine ⟨hread, ?_, by rwa [List.append_nil] at hagain⟩
  have hlength : Varint.encode 1 = [1] := by rw [Varint.encode]; rfl
  have hdepth : Varint.encode 2 = [2] := by rw [Varint.encode]; rfl
  unfold encode
  rw [hname]
  show Varint.encode 1 ++ _ ++ Varint.encode 2 ++ _ = _
  rw [hlength, hdepth]
  rfl

end Config
end SignalRegistry
