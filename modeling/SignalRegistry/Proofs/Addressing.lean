/-
# Signals by their own paths

A signal that a network holds has a path: its name, block, device with number
and network. Whether the path leads back to the signal depends on its device
component alone (`Site.bind_path_iff`). If the device name and the digits of
the number fit the size of a device name together, the path leads to the
signal and to no other. If digits are cut off, it leads to another device, or
to none; and if no digit is left, it leads to the first device of the name.

Key definitions: `Signal.Addressable`, `Signal.pathIn`.
Key theorems: `Signal.selects_path_iff`, `Site.bind_path_iff`.
-/
import SignalRegistry.Proofs.Path
import SignalRegistry.Proofs.Run

namespace SignalRegistry

namespace Signal

/-- The names of a signal can be components of a path, its device name can be
told from the number, and it has a number. -/
structure Addressable (s : Signal) : Prop where
  name : s.name.text ≠ "" ∧ s.name.text ≠ "*" ∧ '.' ∉ s.name.chars
  block : s.block.text ≠ "" ∧ s.block.text ≠ "*" ∧ '.' ∉ s.block.chars
  device : s.device.text ≠ "" ∧ '.' ∉ s.device.chars
  deviceEnd : ∀ c, s.device.chars.getLast? = some c → c.isDigit = false
  number : s.number ≠ 0

/-- The components of the path of a signal. -/
def selectorIn (s : Signal) (network : NetworkName) : Selector :=
  .ofNames s.name.text s.block.text s.device.text s.number network.text

/-- The path of a signal in a network. -/
def pathIn (s : Signal) (network : NetworkName) : String := (s.selectorIn network).render .signal

variable {s t : Signal} {network : NetworkName}

/-- Short names are kept whole in a path. -/
theorem IsShort.selectorIn_eq (hs : s.IsShort) (network : NetworkName) : s.selectorIn network =
    { signal := s.name, block := s.block, device := s.device, number := s.number
      network := .cut 24 network.text } := by
  simp only [selectorIn, Selector.ofNames, Name.cut_text hs.name, Name.cut_text hs.block,
    Name.cut_text hs.device]

theorem Addressable.plain (h : s.Addressable) (hs : s.IsShort) (hn : Network.Accepts network) :
    (s.selectorIn network).Plain := by
  rw [hs.selectorIn_eq, Name.cut_text hn.2]
  exact ⟨h.name, h.block, h.device, h.deviceEnd, h.number, hn.1,
    ⟨hs.name, hs.block, hs.device, hn.2⟩⟩

/-- How much of its number is read back from the path of a signal. -/
theorem Addressable.readNumber_eq_iff (h : s.Addressable) (hs : s.IsShort)
    (hn : Network.Accepts network) : ((s.selectorIn network).readNumber = s.number ↔
      s.device.text.utf8ByteSize + (Digits.digits s.number.toNat).length ≤ 15) ∧
      ((s.selectorIn network).readNumber = 0 ↔ s.device.text.utf8ByteSize = 15) := by
  have hread := Selector.readNumber_eq_iff (h.plain hs hn)
  rwa [show (s.selectorIn network).device = s.device by rw [hs.selectorIn_eq],
    show (s.selectorIn network).number = s.number from rfl] at hread

/-- The signal has the name, block and device of another. -/
def sameNames (s t : Signal) : Bool :=
  t.name == s.name && t.block == s.block && t.device == s.device

/-- What a path that is read back matches: signals with the names of its own
and with the number that was read, if any was. -/
theorem selects_path_iff (h : s.Addressable) (hs : s.IsShort) (number : UInt32) :
    Network.selects { s.selectorIn network with number := number } t = true ↔
      s.sameNames t = true ∧ (number = 0 ∨ number = t.number) := by
  have hblock : s.block.isEmpty = false := by
    rw [← Bool.not_eq_true, Name.isEmpty_iff]
    exact h.block.1
  have hdevice : s.device.isEmpty = false := by
    rw [← Bool.not_eq_true, Name.isEmpty_iff]
    exact h.device.1
  simp only [Network.selects, agrees, sameNames, hs.selectorIn_eq, hblock, hdevice, Bool.false_or,
    Bool.and_eq_true, Bool.or_eq_true, beq_iff_eq]
  constructor
  · rintro ⟨hname, ⟨hb, hd⟩, hnr⟩
    exact ⟨⟨⟨hname, hb.symm⟩, hd.symm⟩, hnr⟩
  · rintro ⟨⟨⟨hname, hb⟩, hd⟩, hnr⟩
    exact ⟨hname, ⟨hb.symm, hd.symm⟩, hnr⟩

theorem identity_of_sameNames (h : s.sameNames t = true) (hnr : t.number = s.number) :
    t.identity = s.identity := by
  simp only [sameNames, Bool.and_eq_true, beq_iff_eq] at h
  simp only [identity, h.1.1, h.1.2, h.2, hnr]

theorem sameNames_self (s : Signal) : s.sameNames s = true := by simp [sameNames]

end Signal

namespace Network

/-- A signal of a network is determined by its identity. -/
theorem eq_of_identity_eq {n : Network} (hn : n.WellFormed) {s t : Signal}
    (hs : s ∈ n.signals.items) (ht : t ∈ n.signals.items) (he : t.identity = s.identity) : t = s := by
  obtain ⟨h, hs⟩ := (Index.mem_items hn.signals s).1 hs
  obtain ⟨k, ht⟩ := (Index.mem_items hn.signals t).1 ht
  obtain rfl := hn.identity k h t s ht hs he
  rwa [ht, Option.some_inj] at hs

/-- The first signal that a path read back matches is the path's own exactly
if the whole number was read, or nothing of it and the signal is the first of
its names. -/
theorem find?_path_iff {n : Network} (hn : n.WellFormed) {s : Signal} (hs : s ∈ n.signals.items)
    (h : s.Addressable) (hshort : s.IsShort) (number : UInt32) :
    n.signals.items.find? (selects { s.selectorIn n.name with number := number }) = some s ↔
      number = s.number ∨ number = 0 ∧ n.signals.items.find? s.sameNames = some s := by
  by_cases hnr : number = s.number
  · subst hnr
    refine iff_of_true ?_ (Or.inl rfl)
    have hself : selects { s.selectorIn n.name with number := s.number } s = true :=
      (Signal.selects_path_iff h hshort s.number).2 ⟨s.sameNames_self, Or.inr rfl⟩
    obtain ⟨t, ht⟩ := Option.isSome_iff_exists.1 (List.find?_isSome.2 ⟨s, hs, hself⟩)
    obtain ⟨hnames, h0 | hnumber⟩ := (Signal.selects_path_iff h hshort s.number).1 (List.find?_some ht)
    · exact absurd h0 h.number
    · rw [ht, eq_of_identity_eq hn hs (List.mem_of_find?_eq_some ht)
        (Signal.identity_of_sameNames hnames hnumber.symm)]
  · by_cases h0 : number = 0
    · have hsame : selects { s.selectorIn n.name with number := number } = s.sameNames := by
        funext t
        rw [Bool.eq_iff_iff, Signal.selects_path_iff h hshort]
        exact and_iff_left (Or.inl h0)
      rw [hsame]
      exact ⟨fun hf => Or.inr ⟨h0, hf⟩, fun hf => (hf.resolve_left hnr).2⟩
    · refine iff_of_false (fun hf => ?_) (by tauto)
      obtain ⟨-, hsel⟩ := (Signal.selects_path_iff h hshort number).1 (List.find?_some hf)
      exact hsel.elim h0 hnr

end Network

namespace Site

theorem resolvePath_answer (s : Site) (path : String) (own : Option String) :
    (s.resolvePath path own).2.1 = (s.hub.resolvePath s.isAlive s.memory path own).2.1 := rfl

/-- The path of a signal that a network holds leads to this network and signal
exactly if its whole number is read back, or nothing of it and the signal is
the first of its names. -/
theorem bind_path_read (config : Config) (actions : List Action) {n : Network} {sig : Signal}
    (hn : n ∈ ((ofConfig config).run actions).hub.registry.networks.items)
    (hsig : sig ∈ n.signals.items) (ha : sig.Addressable) :
    Network.Accepts n.name ∧ sig.IsShort ∧
      ((((ofConfig config).run actions).resolvePath (sig.pathIn n.name) none).2.1.map
          (fun b => (b.network, b.signal)) = some (n.name, sig) ↔
        (sig.selectorIn n.name).readNumber = sig.number ∨
          (sig.selectorIn n.name).readNumber = 0 ∧
            n.signals.items.find? sig.sameNames = some sig) := by
  have hs := sound_run (s := ofConfig config) (Hub.sound_ofConfig config) actions
  obtain ⟨h, hg⟩ := (Index.mem_items hs.registry.networks n).1 hn
  have hname : Network.Accepts n.name := ⟨hs.registry.named h n hg, n.short⟩
  have hshort := (hs.settled h n hg).short sig hsig
  have hplain := ha.plain hshort hname
  generalize (ofConfig config).run actions = s at hs hg
  have halive : ∀ b ∈ s.hub.blocks, s.isAlive b.id = true := fun b => s.isAlive_of_mem
  let ids : Selector :=
    { sig.selectorIn n.name with number := (sig.selectorIn n.name).readNumber }
  have hids : s.hub.selector .signal (sig.pathIn n.name) = ids := Selector.parse_render hplain _
  have hsignal : ids.signal.text ≠ "" := hplain.signal.1
  have hnet : ids.network = n.name := by
    show (sig.selectorIn n.name).network = n.name
    rw [hshort.selectorIn_eq, n.cut_name]
  have hnamed : s.hub.registry.named? ids.network.text = some n := by
    rw [hnet]
    exact (Registry.named?_eq_some_iff hs.registry).2 ⟨h, hg, rfl⟩
  have hpair : ∀ t? : Option Signal,
      t?.map (fun t => (n.name, t)) = some (n.name, sig) ↔ t? = some sig := by
    intro t?
    cases t? <;> simp
  refine ⟨hname, hshort, ?_⟩
  rw [resolvePath_answer, Hub.resolvePath_binding, hids,
    hs.resolve_binding halive s.memory hsignal hnamed, hpair]
  exact Network.find?_path_iff (hs.registry.each h n hg) hsig ha hshort _

/-- **A signal is found again by its path, if the device's number has room in it.**
The path of a signal that a network holds leads to this network and signal
exactly if its device name and number fit the size of a device name together,
or if there is no room for the number at all and the signal is the first of its
names. -/
theorem bind_path_iff (config : Config) (actions : List Action) {n : Network} {sig : Signal}
    (hn : n ∈ ((ofConfig config).run actions).hub.registry.networks.items)
    (hsig : sig ∈ n.signals.items) (ha : sig.Addressable) :
    (((ofConfig config).run actions).resolvePath (sig.pathIn n.name) none).2.1.map
        (fun b => (b.network, b.signal)) = some (n.name, sig) ↔
      sig.device.text.utf8ByteSize + (Digits.digits sig.number.toNat).length ≤ 15 ∨
        sig.device.text.utf8ByteSize = 15 ∧ n.signals.items.find? sig.sameNames = some sig := by
  obtain ⟨hname, hshort, hbind⟩ := bind_path_read config actions hn hsig ha
  obtain ⟨hall, hnone⟩ := ha.readNumber_eq_iff hshort hname
  rw [hbind, hall, hnone]

/-! ### A network with three devices -/

/-- The `info` block of a device with a signal `t` in its block `exp`. -/
def infoBlock (device : String) (number : UInt32) : Block where
  identity := .ofNames "info" device number "n"
  bytes := Utf8.ofString
    "\x7b\"mblk\":[\x7b\"name\":\"exp\",\"groups\":[\x7b\"signals\":[\x7b\"name\":\"t\"\x7d]\x7d]\x7d]\x7d"

/-- The block `exp` of a device. -/
def dataBlock (device : String) (number : UInt32) : Block :=
  .zeros (.ofNames "exp" device number "n") 32

/-- The name of the network of these blocks is stored in full. -/
theorem text_network : (Name.cut 24 "n" : NetworkName).text = "n" := by decide

/-- A device with a short name arrives, and two that share one as long as a name
may be. -/
def threeDevices : List Action :=
  [.publish (infoBlock "gina" 1), .arrive 0, .publish (infoBlock "abcdefghijklmno" 1), .arrive 1,
    .publish (infoBlock "abcdefghijklmno" 2), .arrive 2]

/-- The names and number of a signal. -/
def namesOf (s : Signal) : String × String × String × UInt32 :=
  (s.name.text, s.block.text, s.device.text, s.number)

theorem items_threeDevices :
    ((ofConfig .default).run threeDevices).hub.registry.networks.items.map
      (fun n => (n.name.text, n.signals.items.map namesOf)) =
    [("n", [("t", "exp", "gina", 1), ("t", "exp", "abcdefghijklmno", 1),
      ("t", "exp", "abcdefghijklmno", 2)])] := by decide +kernel

theorem network_threeDevices : ∃ n a b c,
    n ∈ ((ofConfig .default).run threeDevices).hub.registry.networks.items ∧
    n.signals.items = [a, b, c] ∧ namesOf a = ("t", "exp", "gina", 1) ∧
    namesOf b = ("t", "exp", "abcdefghijklmno", 1) ∧
    namesOf c = ("t", "exp", "abcdefghijklmno", 2) := by
  obtain ⟨n, hn, hnames⟩ := List.map_eq_singleton_iff.1 items_threeDevices
  obtain ⟨a, l, hl, ha, hrest⟩ := List.map_eq_cons_iff.1 (Prod.mk.inj hnames).2
  obtain ⟨b, l, rfl, hb, hrest⟩ := List.map_eq_cons_iff.1 hrest
  obtain ⟨c, rfl, hc⟩ := List.map_eq_singleton_iff.1 hrest
  exact ⟨n, a, b, c, hn ▸ List.mem_singleton_self n, hl, ha, hb, hc⟩

theorem addressable_of_namesOf {s : Signal} {device : String} {number : UInt32}
    (hs : namesOf s = ("t", "exp", device, number)) (hne : device ≠ "")
    (hdot : '.' ∉ device.toList)
    (hend : ∀ c, device.toList.getLast? = some c → c.isDigit = false) (hnumber : number ≠ 0) :
    s.Addressable := by
  simp only [namesOf, Prod.mk.injEq] at hs
  obtain ⟨hname, hblock, rfl, rfl⟩ := hs
  refine ⟨?_, ?_, ⟨hne, hdot⟩, hend, hnumber⟩
  · simp [Name.chars, hname]
  · simp [Name.chars, hblock]

/-- The path `t.exp.gina1.n` leads to its signal. -/
theorem bind_path_gina : ∃ n ∈ ((ofConfig .default).run threeDevices).hub.registry.networks.items,
    ∃ sig ∈ n.signals.items, sig.Addressable ∧
      (((ofConfig .default).run threeDevices).resolvePath (sig.pathIn n.name) none).2.1.map
        (fun b => (b.network, b.signal)) = some (n.name, sig) := by
  obtain ⟨n, a, b, c, hn, hl, ha, -, -⟩ := network_threeDevices
  have hmem : a ∈ n.signals.items := by rw [hl]; exact List.mem_cons_self
  have haddr := addressable_of_namesOf ha (by decide) (by decide) (by simp) (by decide)
  refine ⟨n, hn, a, hmem, haddr, (bind_path_iff .default threeDevices hn hmem haddr).2 (Or.inl ?_)⟩
  simp only [namesOf, Prod.mk.injEq] at ha
  rw [ha.2.2.1, ha.2.2.2, Digits.digits]
  decide

/-- Not every signal is found by its own path: that of the second device with
the long name leads to the first. -/
theorem path_to_other_device : ¬ ∀ (config : Config) (actions : List Action) (n : Network)
    (sig : Signal), n ∈ ((ofConfig config).run actions).hub.registry.networks.items →
    sig ∈ n.signals.items → sig.Addressable →
    (((ofConfig config).run actions).resolvePath (sig.pathIn n.name) none).2.1.map
      (fun b => (b.network, b.signal)) = some (n.name, sig) := by
  intro h
  obtain ⟨n, a, b, c, hn, hl, ha, hb, hc⟩ := network_threeDevices
  have hmem : c ∈ n.signals.items := by rw [hl]; simp
  have haddr := addressable_of_namesOf hc (by decide) (by decide) (by simp) (by decide)
  obtain ⟨hname, hshort, hbind⟩ := bind_path_read .default threeDevices hn hmem haddr
  obtain ⟨hall, -⟩ := haddr.readNumber_eq_iff hshort hname
  simp only [namesOf, Prod.mk.injEq] at ha hb hc
  rcases hbind.1 (h .default threeDevices n c hn hmem haddr) with hread | ⟨-, hfirst⟩
  · -- The name has no room for a digit.
    have hfits := hall.1 hread
    have hsize : "abcdefghijklmno".utf8ByteSize = 15 := by decide
    have hlen := Digits.digits_length_pos c.number.toNat
    rw [hc.2.2.1, hsize] at hfits
    omega
  · -- The first device has the same names.
    have hca : c.sameNames a = false := by
      simp [Signal.sameNames, Name.ext_iff, ha, hc]
    have hcb : c.sameNames b = true := by
      simp [Signal.sameNames, Name.ext_iff, hb, hc]
    rw [hl, List.find?_cons_of_neg (by simp [hca]), List.find?_cons_of_pos hcb,
      Option.some_inj] at hfirst
    have hnumber := congrArg Signal.number hfirst
    rw [hb.2.2.2, hc.2.2.2] at hnumber
    exact absurd hnumber (by decide)

end Site
end SignalRegistry
