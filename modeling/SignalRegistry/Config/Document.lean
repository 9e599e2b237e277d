/-
# The configuration as JSON

An object with all fields in order and no blanks, or any JSON document with
the same fields.

Key definitions: `Config.toJson`, `Config.ofJson`, `Json.quote`.
-/
import SignalRegistry.Config
import SignalRegistry.Json.Record
import SignalRegistry.Text.Digits

namespace SignalRegistry

namespace Json

/-- A hexadecimal digit in lower case. -/
def hexDigit (n : Nat) : Char := if n < 10 then Char.ofNat (48 + n) else Char.ofNat (87 + n)

/-- A character between quotes: quotes, backslashes and controls are escaped. -/
def escape (c : Char) : List Char :=
  if c = '"' then ['\\', '"']
  else if c = '\\' then ['\\', '\\']
  else if c.toNat = 0x08 then ['\\', 'b']
  else if c.toNat = 0x0C then ['\\', 'f']
  else if c = '\n' then ['\\', 'n']
  else if c = '\r' then ['\\', 'r']
  else if c = '\t' then ['\\', 't']
  else if c.toNat < 0x20 then ['\\', 'u', '0', '0', hexDigit (c.toNat / 16), hexDigit (c.toNat % 16)]
  else [c]

/-- A string between quotes. -/
def quote (s : String) : String := String.ofList ('"' :: s.toList.flatMap escape ++ ['"'])

end Json

namespace Config

/-- The object that writes a configuration. -/
def toJson (c : Config) : String :=
  let switch (on : Bool) := if on then "true" else "false"
  let members :=
    [("default_network_name", Json.quote c.defaultNetwork.text),
     ("event_queue_depth", Digits.ofNat c.queueDepth.toNat),
     ("event_mask", Digits.ofNat c.eventMask.bits.toNat),
     ("remove_empty_networks", switch c.removeEmptyNetworks),
     ("resize_mblks", switch c.resizeBlocks)]
  "\x7b" ++ ",".intercalate (members.map fun m => Json.quote m.1 ++ ":" ++ m.2) ++ "\x7d"

/-- A name of a network, which must fit as it is. -/
def readName : Json.Reader (Name 24) := fun t => do
  let s ← Json.string t
  let name := Name.truncate 24 s
  if name.text = s then return name else throw .mismatch

open Json (field record) in
/-- Reads the fields, all of which must be there. -/
def read : Json.Reader Config :=
  record
    [field "default_network_name" false false readName fun v c => { c with defaultNetwork := v },
     field "event_queue_depth" false false (Json.integer 0 (UInt32.size - 1 : Nat)) fun v c =>
       { c with queueDepth := .ofNat v.toNat },
     field "event_mask" false false (Json.integer 0 255) fun v c =>
       { c with eventMask := ⟨.ofNat v.toNat⟩ },
     field "remove_empty_networks" false false Json.bool fun v c =>
       { c with removeEmptyNetworks := v },
     field "resize_mblks" false false Json.bool fun v c => { c with resizeBlocks := v }]
    default

/-- The configuration of a document, unchecked. -/
def ofJson (text : Octets) : Except Json.Fault Config := Json.Document.read read text

end Config
end SignalRegistry
