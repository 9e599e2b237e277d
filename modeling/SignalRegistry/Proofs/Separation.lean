/-
# Signals of a layout do not interfere

As long as no declared address is below the cursor, a signal begins where the one
before it has ended, or after that (`Layout.Visit.lastStop_le_start`). So the signals of
a block follow one another, named or not (`Layout.GoesForward.pairwise_visits`), and
the bytes of two signals that are listed have nothing in common.

A write changes the bytes of its own signal only, so what is read where it has not
been is the same (`Block.readSignal_of_write`). The signals of a layout are in every
block of its size: each can be written, and no other one is read differently then
(`Layout.separate_signals`).

Key definitions: `Layout.GoesForward`, `Placement.read`, `Placement.write`.
Key theorems: `Layout.GoesForward.pairwise_visits`, `Layout.GoesForward.pairwise_signals`,
`Block.readSignal_of_write`, `Layout.separate_signals`.
-/
import SignalRegistry.Proofs.LayoutRules
import SignalRegistry.Proofs.WriteRead

namespace SignalRegistry

/-! ### Signals that follow one another -/

namespace Layout

/-- No address that is declared is below the end of the signal before. -/
def GoesForward (groups : List SignalGroup) : Prop :=
  ∀ v ∈ visits groups, ∀ a ∈ v.declaration.address?, lastStop v.earlier ≤ a

instance (groups : List SignalGroup) : Decidable (GoesForward groups) :=
  inferInstanceAs (Decidable (∀ v ∈ visits groups, ∀ a ∈ v.declaration.address?, _))

/-- A signal whose address is not below the cursor begins at the cursor or after it. -/
theorem Visit.lastStop_le_start {v : Visit}
    (h : ∀ a ∈ v.declaration.address?, lastStop v.earlier ≤ a) : lastStop v.earlier ≤ v.start := by
  unfold Visit.start
  cases haddress : v.declaration.address? with
  | none => exact Nat.le_refl _
  | some a => exact h a haddress

/-- From a point on, no signal begins before the end of the one met last, and each
begins after all that come before it. -/
theorem pairwise_visitsAfter {earlier rest : List Mark}
    (h : ∀ v ∈ visitsAfter earlier rest, ∀ a ∈ v.declaration.address?, lastStop v.earlier ≤ a) :
    (∀ v ∈ visitsAfter earlier rest, lastStop earlier ≤ v.start) ∧
      (visitsAfter earlier rest).Pairwise fun v w => v.stop ≤ w.start := by
  induction rest generalizing earlier with
  | nil => exact ⟨fun v hv => absurd hv List.not_mem_nil, .nil⟩
  | cons mark rest ih =>
    cases mark with
    | enter group => exact ih h
    | signal d =>
      rw [visitsAfter] at h ⊢
      obtain ⟨hafter, hpairwise⟩ := ih fun v hv => h v (List.mem_cons_of_mem _ hv)
      have hstart : lastStop earlier ≤ Visit.start ⟨d, earlier⟩ :=
        Visit.lastStop_le_start (h ⟨d, earlier⟩ List.mem_cons_self)
      -- The end of this signal is the one met last from here on.
      have hstop : lastStop earlier ≤ lastStop (.signal d :: earlier) :=
        Nat.le_trans hstart (Nat.le_add_right _ _)
      refine ⟨fun v hv => ?_, List.pairwise_cons.2 ⟨hafter, hpairwise⟩⟩
      rcases List.mem_cons.1 hv with rfl | hv
      · exact hstart
      · exact Nat.le_trans hstop (hafter v hv)

/-- A signal that is listed ends where the rules say. -/
theorem Visit.Places.stop_eq {v : Visit} {p : Placement} (hv : v.fault = none) (h : v.Places p) :
    p.stop = v.stop := by
  unfold Placement.stop Visit.stop
  rw [h.address, h.count, h.type, extent_eq_of_le v.type (Visit.le_limit hv).1]

/-- A layout is that of signals without a fault, and lists those that have a name. -/
theorem signals_of_ofGroups {block : String} {groups : List SignalGroup} {l : Layout}
    (h : ofGroups block groups = .ok l) :
    (∀ v ∈ visits groups, v.fault = none) ∧
      l.signals = (visits groups).filterMap Visit.placement? := by
  rw [ofGroups_eq] at h
  cases hfault : firstFault groups with
  | some e =>
    rw [hfault] at h
    cases h
  | none =>
    rw [hfault] at h
    obtain rfl := Except.ok.inj h
    exact ⟨List.findSome?_eq_none_iff.1 hfault, rfl⟩

/-- The signals of a block follow one another, those without a name among them. -/
theorem GoesForward.pairwise_visits {groups : List SignalGroup} (h : GoesForward groups) :
    (visits groups).Pairwise fun v w => v.stop ≤ w.start :=
  (pairwise_visitsAfter h).2

/-- The signals of a layout are listed in the order of their bytes. -/
theorem GoesForward.pairwise_signals {block : String} {groups : List SignalGroup} {l : Layout}
    (hforward : GoesForward groups) (h : ofGroups block groups = .ok l) :
    l.signals.Pairwise fun p q => p.stop ≤ q.address.toNat := by
  obtain ⟨hfault, hsignals⟩ := signals_of_ofGroups h
  rw [hsignals, List.pairwise_filterMap]
  refine hforward.pairwise_visits.imp_of_mem fun {v w} hv hw hle p hp q hq => ?_
  have hp := (Visit.places_iff (hfault v hv) p).2 hp
  have hq := (Visit.places_iff (hfault w hw) q).2 hq
  rw [hp.stop_eq (hfault v hv), hq.address]
  exact hle

end Layout

/-! ### Reading where a write has not been -/

namespace Block

variable {m m' : Block} {address n : Nat} {type : ElementType} {value : Value} {state : UInt8}

/-- A write keeps the size of the block and all bytes outside of its signal. -/
theorem outside_of_writeSignal (h : m.writeSignal address n type value state = .ok m') :
    m'.size = m.size ∧
      ∀ i, i < address ∨ address + type.extent n ≤ i → m'.bytes[i]? = m.bytes[i]? := by
  obtain ⟨old, body, hbytes, hbody, rfl⟩ := exists_written h
  have hstop := ((signalBytes?_isSome_iff m address n type).1 (by rw [hbytes]; rfl)).2
  have hlength : ((written type n value state body).1 ::
      (written type n value state body).2).length = type.extent n := by
    rw [List.length_cons, length_written, hbody]
  rw [← hlength] at hstop ⊢
  exact ⟨length_overwrite hstop, fun i hi => by rw [getElem?_overwrite hstop, if_pos hi]⟩

/-- What is read of a signal depends on the size of the block and the signal's own bytes. -/
theorem readSignal_congr (hsize : m'.size = m.size)
    (hbytes : ∀ i, address ≤ i → i < address + type.extent n → m'.bytes[i]? = m.bytes[i]?) :
    m'.readSignal address n type = m.readSignal address n type := by
  have hown : m'.readBytes address (type.extent n) = m.readBytes address (type.extent n) := by
    refine List.ext_getElem? fun k => ?_
    unfold readBytes
    by_cases hk : k < type.extent n
    · rw [List.getElem?_take_of_lt hk, List.getElem?_take_of_lt hk, List.getElem?_drop,
        List.getElem?_drop, hbytes (address + k) (by omega) (by omega)]
    · rw [List.getElem?_eq_none (by rw [List.length_take]; omega),
        List.getElem?_eq_none (by rw [List.length_take]; omega)]
  unfold readSignal signalBytes?
  rw [hsize, hown]

/-- A write is not seen in a signal that has no byte in common with it. -/
theorem readSignal_of_write (h : m.writeSignal address n type value state = .ok m')
    {address' n' : Nat} {type' : ElementType}
    (happart : address + type.extent n ≤ address' ∨ address' + type'.extent n' ≤ address) :
    m'.readSignal address' n' type' = m.readSignal address' n' type' := by
  obtain ⟨hsize, houtside⟩ := outside_of_writeSignal h
  exact readSignal_congr hsize fun i hleast hlast => houtside i (by omega)

end Block

/-! ### The signals of a layout in a block -/

namespace Placement

variable (p : Placement) (m : Block)

/-- The state and value of a signal in a block of its layout. -/
def read : Reading := m.readSignal p.address.toNat p.count.toNat p.type

/-- Stores a value and a state in a block of the layout. -/
def write (value : Value) (state : UInt8) : Except Error Block :=
  m.writeSignal p.address.toNat p.count.toNat p.type value state

variable {p m}

/-- A signal that ends within the block is there. -/
theorem isSome_signalBytes? {l : Layout} (hp : p.stop ≤ l.size.toNat) (hm : l.size.toNat ≤ m.size) :
    (m.signalBytes? p.address.toNat p.count.toNat p.type).isSome = true := by
  have hlimit : l.size.toNat ≤ sizeLimit := by
    have := l.size.toNat_lt
    simp only [sizeLimit, UInt64.size]
    omega
  exact (Block.signalBytes?_isSome_iff m _ _ _).2 ⟨Nat.le_trans hp hlimit, Nat.le_trans hp hm⟩

end Placement

namespace Layout

/-- **The signals of a layout have no byte in common.** As long as no declared address
goes back, they are listed in the order of their bytes and have none in common. In a
block of its size each of them can be written, whatever the value is, and then no
other one is read differently. -/
theorem separate_signals {block : String} {groups : List SignalGroup} {l : Layout}
    (h : ofGroups block groups = .ok l) (hforward : GoesForward groups) :
    l.signals.Pairwise (fun p q => p.stop ≤ q.address.toNat) ∧
    ∀ m : Block, l.size.toNat ≤ m.size →
      ∀ (i : Nat) (hi : i < l.signals.length) (value : Value) (state : UInt8),
        ∃ m', l.signals[i].write m value state = .ok m' ∧
          ∀ (k : Nat) (hk : k < l.signals.length), k ≠ i →
            l.signals[k].read m' = l.signals[k].read m := by
  have hpairwise := hforward.pairwise_signals h
  refine ⟨hpairwise, fun m hm i hi value state => ?_⟩
  have hstop : l.signals[i].stop ≤ l.size.toNat := ofGroups_stop_le h (List.getElem_mem hi)
  obtain ⟨m', hwrite⟩ := Block.exists_writeSignal_of_isSome
    (Placement.isSome_signalBytes? hstop hm) value state
  refine ⟨m', hwrite, fun k hk hne => Block.readSignal_of_write hwrite ?_⟩
  have hordered := List.pairwise_iff_getElem.1 hpairwise
  rcases Nat.lt_or_gt_of_ne hne with hlt | hgt
  · exact Or.inr (hordered k i hk hi hlt)
  · exact Or.inl (hordered i k hi hk hgt)

/-- Packed booleans, two numbers behind a gap, and a text after a signal without a name. -/
def gapped : List SignalGroup :=
  [⟨some "inputs", [{ name := some "dip_switch", array := some 10 }]⟩,
    ⟨none, [{ name := some "temperature", type := some "short", address := some 8, array := some 2 },
      { array := some 3 }, { name := some "motto", type := some "str", array := some 4 }]⟩]

/-- A value that is no pair of numbers goes to the two numbers; the signals before and
after them are read as they were. -/
theorem separate_signals_gapped :
    ofGroups "exp" gapped = .ok ⟨"exp", [⟨"dip_switch", 0, 10, 1, .boolean⟩,
      ⟨"temperature", 8, 2, 1, .short⟩, ⟨"motto", 20, 4, 1, .str⟩], 25⟩ ∧
    GoesForward gapped ∧
    ∃ m', (⟨"temperature", 8, 2, 1, .short⟩ : Placement).write (Block.zeros default 25)
        (.array [.array [], .str "-1", .boolean true]) 0xFF = .ok m' ∧
      Placement.read ⟨"dip_switch", 0, 10, 1, .boolean⟩ m' =
        Placement.read ⟨"dip_switch", 0, 10, 1, .boolean⟩ (Block.zeros default 25) ∧
      Placement.read ⟨"motto", 20, 4, 1, .str⟩ m' =
        Placement.read ⟨"motto", 20, 4, 1, .str⟩ (Block.zeros default 25) := by
  have hlayout : ofGroups "exp" gapped = .ok ⟨"exp", [⟨"dip_switch", 0, 10, 1, .boolean⟩,
      ⟨"temperature", 8, 2, 1, .short⟩, ⟨"motto", 20, 4, 1, .str⟩], 25⟩ := rfl
  have hforward : GoesForward gapped := by decide
  obtain ⟨m', hwrite, hothers⟩ := (separate_signals hlayout hforward).2
    (Block.zeros default 25) (by decide) 1 (by decide)
    (.array [.array [], .str "-1", .boolean true]) 0xFF
  exact ⟨hlayout, hforward, m', hwrite, hothers 0 (by decide) (by decide),
    hothers 2 (by decide) (by decide)⟩

end Layout
end SignalRegistry
