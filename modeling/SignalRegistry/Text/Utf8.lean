/-
# UTF-8

A character is written as one to four bytes. Reading goes byte group by byte
group: the first byte fixes how many continuation bytes follow and in which
range each lies, so the shortest forms are enforced and surrogates refused by
the ranges alone. `decode?` refuses a text with an ill-formed group;
`decodeLossy` puts U+FFFD in the place of each, where an ill-formed group is
the longest run of bytes that still begins a well-formed one (or one byte).

Key definitions: `Utf8.encode`, `Utf8.decode?`, `Utf8.decodeLossy`.
Key theorems: `Utf8.length_encode`.
-/

namespace SignalRegistry

/-- A run of bytes. -/
abbrev Octets := List UInt8

namespace Utf8

/-- The bytes of a text. -/
def encode (cs : List Char) : Octets := cs.flatMap String.utf8EncodeChar

/-- The bytes of a string. -/
def ofString (s : String) : Octets := encode s.toList

/-- The number of bytes that characters take. -/
def size : List Char → Nat
  | [] => 0
  | c :: cs => c.utf8Size + size cs

/-- Inclusive bounds of a byte. -/
abbrev Bounds := UInt8 × UInt8

/-- The bounds of the bytes that follow a first byte; `none` for a byte that
begins no character. -/
def continuation? (first : UInt8) : Option (List Bounds) :=
  if first ≤ 0x7F then some []
  else if first ≤ 0xC1 then none
  else if first ≤ 0xDF then some [(0x80, 0xBF)]
  else if first = 0xE0 then some [(0xA0, 0xBF), (0x80, 0xBF)]
  else if first = 0xED then some [(0x80, 0x9F), (0x80, 0xBF)]
  else if first ≤ 0xEF then some [(0x80, 0xBF), (0x80, 0xBF)]
  else if first = 0xF0 then some [(0x90, 0xBF), (0x80, 0xBF), (0x80, 0xBF)]
  else if first ≤ 0xF3 then some [(0x80, 0xBF), (0x80, 0xBF), (0x80, 0xBF)]
  else if first = 0xF4 then some [(0x80, 0x8F), (0x80, 0xBF), (0x80, 0xBF)]
  else none

/-- How many bytes in turn lie within their bounds. -/
def matched : List Bounds → Octets → Nat
  | bounds :: more, b :: rest =>
    if bounds.1 ≤ b ∧ b ≤ bounds.2 then matched more rest + 1 else 0
  | _, _ => 0

/-- The code point of a first byte and its continuation bytes: the bits below
the length marker of the first, then six of each. -/
def codePoint (first : UInt8) (tail : Octets) : Nat :=
  let lead := if tail.isEmpty then first.toNat else first.toNat % Nat.pow 2 (6 - tail.length)
  tail.foldl (fun n b => 64 * n + b.toNat % 64) lead

/-- The first byte group: its character, or `none` if it is ill-formed, and
the number of bytes after the first that belong to it. -/
def group (first : UInt8) (rest : Octets) : Option Char × Nat :=
  match continuation? first with
  | none => (none, 0)
  | some bounds =>
    let k := matched bounds rest
    if k = bounds.length then (some (Char.ofNat (codePoint first (rest.take k))), k) else (none, k)

/-- U+FFFD, which stands for bytes that cannot be read. -/
def replacement : Char := Char.ofNat 0xFFFD

/-- The text of the bytes, with U+FFFD for each ill-formed group. -/
def decodeLossy : Octets → List Char
  | [] => []
  | first :: rest =>
    (group first rest).1.getD replacement :: decodeLossy (rest.drop (group first rest).2)
termination_by bytes => bytes.length
decreasing_by simp only [List.length_drop, List.length_cons]; omega

/-- The text of the bytes, if every group is well-formed. -/
def decode? : Octets → Option (List Char)
  | [] => some []
  | first :: rest =>
    match (group first rest).1 with
    | none => none
    | some c => (decode? (rest.drop (group first rest).2)).map (c :: ·)
termination_by bytes => bytes.length
decreasing_by simp only [List.length_drop, List.length_cons]; omega

/-- The string the bytes write, if they write one. -/
def toString? (bytes : Octets) : Option String := (decode? bytes).map String.ofList

theorem encode_append (a b : List Char) : encode (a ++ b) = encode a ++ encode b := by
  simp [encode]

/-- The bytes of a text are counted by the sizes of its characters. -/
theorem length_encode : ∀ cs : List Char, (encode cs).length = size cs
  | [] => rfl
  | c :: cs => by
    have ih := length_encode cs
    unfold encode at ih ⊢
    rw [List.flatMap_cons, List.length_append, String.length_utf8EncodeChar, ih, size]

end Utf8
end SignalRegistry
