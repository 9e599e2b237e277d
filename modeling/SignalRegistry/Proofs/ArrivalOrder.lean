/-
# In which order the blocks of a device come

The table of a device and a block of its data come to a hub that holds nothing. A
signal of the table that runs past the end of the block is where it matters which
comes first. If blocks are to be grown, only a block that is there is grown when the
table comes; otherwise the table is checked against the blocks that are there, and
such a signal is left out.

All else is the same: the same signals are entered in the same order, and they are read
in the same blocks. So a path has the same value in either order unless its first match
is declared to run past the end of the block (`Site.arrival_order`). A block whose name,
or the name of whose device, is too long has no signal: these are kept under what is
left of the name (`Site.Arrivals.blockIn_iff_of_overruns`).

Key definitions: `Site.Arrivals`, `Site.infoThenData`, `Site.dataThenInfo`.
Key theorems: `Site.accepted_iff`, `Site.Arrivals.extends_memory`,
`Site.Arrivals.leavesOut`, `Site.arrival_order`.
-/
import SignalRegistry.Proofs.Omission

namespace SignalRegistry

open Network (SameOrder LeavesOut)

theorem Hub.Arrival.memory_of_data {alive : Nat → Bool} {hub : Hub} {memory : Memory}
    {data : BlockRef} {out : Hub × Memory × Except Error Unit × Journal}
    (ha : Arrival alive hub memory data out) (hkind : data.identity.holdsTable = false) :
    out.2.1 = memory := by
  cases ha with
  | known held => rfl
  | data new kind updates notices => rfl
  | rejected new kind reason notices => rfl
  | registered new kind table before after updates growth notices =>
    rw [hkind] at kind
    cases kind

namespace Site

variable {config : Config} {s : Site} {info data ref : BlockRef}

/-- A hub that holds nothing is going to be told of the table of a device, which is
accepted whether it comes first or last, and of a block of its data. -/
structure Arrivals (s : Site) (config : Config) (info data : BlockRef) : Prop where
  fresh : s.hub = .ofConfig config
  hasInfo : s.memory.ref? info.id = some info
  hasData : s.memory.ref? data.id = some data
  table : info.identity.holdsTable = true
  device : data.identity.owner = info.identity.owner
  distinct : data.identity.block ≠ info.identity.block
  accepted : (s.arrive info.id).2.1 = .ok ()
  acceptedLast : ((s.act (.arrive data.id)).arrive info.id).2.1 = .ok ()

/-- The table comes, and then the block of data. -/
def infoThenData (s : Site) (info data : BlockRef) : Site :=
  s.run [.arrive info.id, .arrive data.id]

/-- The block of data comes, and then the table. -/
def dataThenInfo (s : Site) (info data : BlockRef) : Site :=
  s.run [.arrive data.id, .arrive info.id]

theorem blocks_act_arrive (hs : s.hub.Sound config) (href : s.memory.ref? ref.id = some ref)
    (hnew : s.hub.holds ref.id = false) :
    (s.act (.arrive ref.id)).hub.blocks = s.hub.blocks ++ [ref] := by
  rw [s.hub_act_arrive href, (Hub.arrival hs.registry _ s.memory ref).blocks, hnew,
    if_neg Bool.false_ne_true]

theorem memory_act_arrive (href : s.memory.ref? ref.id = some ref) :
    (s.act (.arrive ref.id)).memory = (s.hub.arrive (s.aliveWith ref.id) s.memory ref).2.1 := by
  simp only [act, s.arrive_eq href, memory_deliver]

/-- A block of data changes no block. -/
theorem memory_act_data (hs : s.hub.Sound config) (href : s.memory.ref? ref.id = some ref)
    (hkind : ref.identity.holdsTable = false) : (s.act (.arrive ref.id)).memory = s.memory := by
  rw [memory_act_arrive href]
  exact (Hub.arrival hs.registry (s.aliveWith ref.id) s.memory ref).memory_of_data hkind

theorem answer_arrive (href : s.memory.ref? ref.id = some ref) :
    (s.arrive ref.id).2.1 = (s.hub.arrive (s.aliveWith ref.id) s.memory ref).2.2.1 := by
  rw [s.arrive_eq href]

/-- A table is accepted exactly if it can be read and its network can have its name, as
far as the allocator grants the sizes of its layouts. -/
theorem accepted_iff (hs : s.hub.Sound config) (hr : s.Recorded)
    (href : s.memory.ref? ref.id = some ref) (hnew : s.hub.holds ref.id = false)
    (htable : ref.identity.holdsTable = true)
    (hgrants : ∀ layouts, Layout.parse (s.memory.bytes ref.id) = .ok layouts →
      s.memory.GrantsLayouts layouts) :
    (s.arrive ref.id).2.1 = .ok () ↔ Network.Accepts ref.identity.network ∧
      ∃ layouts, Layout.parse (s.memory.bytes ref.id) = .ok layouts := by
  rw [answer_arrive href]
  refine (Hub.arrival hs.registry _ s.memory ref).accepted_iff hs.registry hnew htable ?_ hgrants
  intro b hb
  rcases List.mem_append.1 hb with hb | hb
  · exact hr b hb
  · rw [List.mem_singleton.1 hb, href]

/-- A table that is accepted grows the blocks of its device, if it does. -/
theorem memory_act_table (hs : s.hub.Sound config) (href : s.memory.ref? ref.id = some ref)
    (hnew : s.hub.holds ref.id = false) (htable : ref.identity.holdsTable = true)
    (hok : (s.arrive ref.id).2.1 = .ok ()) : ∃ layouts,
      Layout.parse (s.memory.bytes ref.id) = .ok layouts ∧
      ((s.act (.arrive ref.id)).memory, .ok ()) = if config.resizeBlocks then
        (s.hub.receive ref).growBlocks ref.identity s.memory layouts else (s.memory, .ok ()) := by
  rw [answer_arrive href] at hok
  obtain ⟨layouts, n, hparse, -, -, hgrowth⟩ :=
    (Hub.arrival hs.registry (s.aliveWith ref.id) s.memory ref).accepted hnew htable
      (by simp [hok])
  rw [hok, ← memory_act_arrive href, hs.configured] at hgrowth
  exact ⟨layouts, hparse, hgrowth⟩

/-- A block of data enters no signal. -/
theorem sameOrder_data (hs : s.hub.Sound config) (href : s.memory.ref? ref.id = some ref)
    (hkind : ref.identity.holdsTable = false) (name : NetworkName) :
    SameOrder ((s.act (.arrive ref.id)).hub.registry.signalsOf name.text)
      (s.hub.registry.signalsOf name.text) := by
  have hnone : s.entered name (.arrive ref.id) = [] := by
    rw [entered_arrive href, Hub.entered_eq_nil (Or.inr (Or.inl hkind))]
  have horder := sameOrder_arrive hs ref.id name
  rw [hnone] at horder
  exact horder

namespace Arrivals

variable (h : s.Arrivals config info data)

include h

theorem sound : s.hub.Sound config := by
  rw [h.fresh]
  exact Hub.sound_ofConfig config

theorem blocks : s.hub.blocks = [] := by
  rw [h.fresh]
  rfl

theorem signals (name : String) : s.hub.registry.signalsOf name = [] := by
  rw [h.fresh]
  exact Registry.signalsOf_empty config name

theorem id_ne : data.id ≠ info.id := by
  intro hid
  have hdata := h.hasData
  rw [hid, h.hasInfo, Option.some_inj] at hdata
  exact h.distinct (congrArg (fun ref => ref.identity.block) hdata.symm)

theorem kind : data.identity.holdsTable = false := by
  have htable : info.identity.block.text = "info" := beq_iff_eq.1 h.table
  refine beq_eq_false_iff_ne.2 fun hdata => ?_
  exact h.distinct (Name.ext (hdata.trans htable.symm))

theorem text_ne : info.identity.block.text ≠ data.identity.block.text :=
  fun he => h.distinct (Name.ext he.symm)

/-- Nothing is held when the first of the two comes, and not the second. -/
theorem new : s.hub.holds info.id = false ∧ s.hub.holds data.id = false ∧
    (s.act (.arrive info.id)).hub.holds data.id = false ∧
    (s.act (.arrive data.id)).hub.holds info.id = false := by
  have hnone : ∀ id, s.hub.holds id = false := fun id => by
    unfold Hub.holds
    rw [h.blocks]
    rfl
  refine ⟨hnone _, hnone _, ?_, ?_⟩
  · unfold Hub.holds
    rw [blocks_act_arrive h.sound h.hasInfo (hnone _), h.blocks]
    simpa using h.id_ne.symm
  · unfold Hub.holds
    rw [blocks_act_arrive h.sound h.hasData (hnone _), h.blocks]
    simpa using h.id_ne

theorem afterInfo : (s.act (.arrive info.id)).hub.Sound config ∧
    (s.act (.arrive info.id)).memory.ref? data.id = some data :=
  ⟨sound_act h.sound _, ref?_act h.sound _ h.hasData⟩

theorem afterData : (s.act (.arrive data.id)).hub.Sound config ∧
    (s.act (.arrive data.id)).memory.ref? info.id = some info ∧
    (s.act (.arrive data.id)).memory = s.memory ∧ (s.act (.arrive data.id)).hub.blocks = [data] := by
  refine ⟨sound_act h.sound _, ref?_act h.sound _ h.hasInfo,
    memory_act_data h.sound h.hasData h.kind, ?_⟩
  rw [blocks_act_arrive h.sound h.hasData h.new.2.1, h.blocks]
  rfl

theorem blocks_infoThenData : (s.infoThenData info data).hub.blocks = [info, data] := by
  show ((s.act (.arrive info.id)).act (.arrive data.id)).hub.blocks = _
  rw [blocks_act_arrive h.afterInfo.1 h.afterInfo.2 h.new.2.2.1,
    blocks_act_arrive h.sound h.hasInfo h.new.1, h.blocks]
  rfl

theorem blocks_dataThenInfo : (s.dataThenInfo info data).hub.blocks = [data, info] := by
  obtain ⟨hs, hinfo, -, hblocks⟩ := h.afterData
  show ((s.act (.arrive data.id)).act (.arrive info.id)).hub.blocks = _
  rw [blocks_act_arrive hs hinfo h.new.2.2.2, hblocks]
  rfl

/-- The block that came first is there when the table comes. -/
theorem blocks_receive : (s.hub.receive info).blocks = [info] ∧
    ((s.act (.arrive data.id)).hub.receive info).blocks =
      data :: (s.hub.receive info).blocks := by
  have hblocks := h.afterData.2.2.2
  unfold Hub.receive
  simp only [hblocks, h.blocks]
  exact ⟨rfl, rfl⟩

/-- What the table makes of the blocks in either order. -/
theorem growth : ∃ layouts, Layout.parse (s.memory.bytes info.id) = .ok layouts ∧
    ((s.infoThenData info data).memory, .ok ()) = (if config.resizeBlocks then
      (s.hub.receive info).growBlocks info.identity s.memory layouts else (s.memory, .ok ())) ∧
    ((s.dataThenInfo info data).memory, .ok ()) = (if config.resizeBlocks then
      ((s.act (.arrive data.id)).hub.receive info).growBlocks info.identity s.memory layouts
      else (s.memory, .ok ())) := by
  obtain ⟨hs, hinfo, hmemory, -⟩ := h.afterData
  have hsame : (s.infoThenData info data).memory = (s.act (.arrive info.id)).memory :=
    memory_act_data h.afterInfo.1 h.afterInfo.2 h.kind
  obtain ⟨layouts, hparse, hgrowth⟩ :=
    memory_act_table h.sound h.hasInfo h.new.1 h.table h.accepted
  obtain ⟨layouts', hparse', hgrowth'⟩ :=
    memory_act_table hs hinfo h.new.2.2.2 h.table h.acceptedLast
  rw [hmemory, hparse, Except.ok.injEq] at hparse'
  subst hparse'
  rw [hmemory] at hgrowth'
  exact ⟨layouts, hparse, hsame ▸ hgrowth, hgrowth'⟩

/-- In either order the two blocks are the same, and the block of data has as many
bytes at first. -/
theorem extends_memory :
    Memory.Extends data.id (s.infoThenData info data).memory (s.dataThenInfo info data).memory ∧
      (s.infoThenData info data).memory.size data.id = s.memory.size data.id := by
  obtain ⟨layouts, -, hgrowth, hgrowth'⟩ := h.growth
  have hrefl : Memory.Extends data.id s.memory s.memory := .refl h.hasData
  by_cases hresize : config.resizeBlocks = true
  · rw [if_pos hresize] at hgrowth hgrowth'
    obtain ⟨honly, hboth⟩ := h.blocks_receive
    have hid : ∀ b ∈ (s.hub.receive info).blocks, b.id ≠ data.id := by
      rw [honly]
      simpa using h.id_ne.symm
    have hname : ∀ b ∈ (s.hub.receive info).blocks,
        b.identity.block.text ≠ data.identity.block.text := by
      rw [honly]
      simpa using h.text_ne
    refine ⟨hrefl.growBlocks hboth h.device hid hname hgrowth.symm hgrowth'.symm, ?_⟩
    unfold Memory.size Memory.bytes
    rw [Hub.block?_growBlocks hid hgrowth.symm]
  · rw [if_neg hresize] at hgrowth hgrowth'
    rw [(Prod.mk.inj hgrowth).1, (Prod.mk.inj hgrowth').1]
    exact ⟨hrefl, rfl⟩

/-- If blocks are grown, one that came first has the size of its layout in the end. -/
theorem size_le_of_resizes (hresize : config.resizeBlocks = true) {layouts : List Layout}
    (hparse : Layout.parse (s.memory.bytes info.id) = .ok layouts) {l : Layout} (hl : l ∈ layouts)
    (hname : data.identity.block.text = l.block) :
    l.size.toNat ≤ (s.dataThenInfo info data).memory.size data.id := by
  obtain ⟨layouts', hparse', -, hgrowth⟩ := h.growth
  rw [hparse, Except.ok.injEq] at hparse'
  subst hparse'
  rw [if_pos hresize] at hgrowth
  refine (Hub.growBlocks_ok _ _ hgrowth.symm).2 l hl data ?_
  rw [Hub.deviceBlock?_cons h.blocks_receive.2 h.device, if_pos hname]

/-! ### The signals in either order -/

theorem sameOrder_infoThenData (name : NetworkName) :
    SameOrder ((s.infoThenData info data).hub.registry.signalsOf name.text)
      ((s.entered name (.arrive info.id)).foldl Network.enter []) := by
  have hinfo := sameOrder_arrive h.sound info.id name
  rw [h.signals] at hinfo
  exact (sameOrder_data h.afterInfo.1 h.afterInfo.2 h.kind name).trans hinfo

theorem sameOrder_dataThenInfo (name : NetworkName) :
    SameOrder ((s.dataThenInfo info data).hub.registry.signalsOf name.text)
      (((s.act (.arrive data.id)).entered name (.arrive info.id)).foldl Network.enter []) := by
  have hdata := sameOrder_data h.sound h.hasData h.kind name
  rw [h.signals] at hdata
  exact (sameOrder_arrive h.afterData.1 info.id name).trans (hdata.foldl_enter _)

/-- Signals that run past the end of the block are left out if it comes first and is
not going to be grown. -/
theorem leavesOut (name : NetworkName) :
    LeavesOut (fun t => config.resizeBlocks = false ∧ t.Overruns s.memory data)
      (s.entered name (.arrive info.id))
      ((s.act (.arrive data.id)).entered name (.arrive info.id)) := by
  obtain ⟨hs, hinfo, hmemory, hblocks⟩ := h.afterData
  have hfirst : (s.act (.arrive data.id)).hub.blocks = data :: s.hub.blocks := by
    rw [hblocks, h.blocks]
  have hconfig : (s.act (.arrive data.id)).hub.config = s.hub.config :=
    hs.configured.trans h.sound.configured.symm
  have hname : ∀ b ∈ s.hub.blocks ++ [info],
      b.identity.block.text ≠ data.identity.block.text := by
    rw [h.blocks]
    simpa using h.text_ne
  rw [entered_arrive h.hasInfo, entered_arrive hinfo, hmemory, ← h.sound.configured]
  exact Hub.leavesOut_entered hfirst hconfig h.device h.id_ne hname name

/-- A signal that is entered under the name of the block lies in it unless this name, or
that of the device, is too long. -/
theorem blockIn_iff_of_overruns {name : NetworkName} {t : Signal}
    (hentered : t ∈ s.entered name (.arrive info.id)) (ht : t.Overruns s.memory data) :
    data.identity = t.blockIn name ↔
      data.identity.block.IsShort ∧ data.identity.device.IsShort := by
  rw [entered_arrive h.hasInfo] at hentered
  have howner := h.device
  simp only [BlockIdentity.owner, Device.mk.injEq] at howner
  obtain ⟨hdevice, hnumber, hnetwork⟩ := howner
  obtain ⟨-, hdevice', hnumber', hnetwork'⟩ := Hub.of_mem_entered hentered
  rw [← hdevice] at hdevice'
  constructor
  · intro hid
    have hblock : data.identity.block = .cut 16 data.identity.block.text :=
      (congrArg BlockIdentity.block hid).trans ht.1
    have hkept : data.identity.device = .cut 16 data.identity.device.text :=
      (congrArg BlockIdentity.device hid).trans hdevice'
    constructor
    · rw [hblock]
      exact Name.isShort_cut _
    · rw [hkept]
      exact Name.isShort_cut _
  · rintro ⟨hblock, hshort⟩
    unfold Signal.blockIn
    rw [ht.1, hdevice', Name.cut_text hblock, Name.cut_text hshort, hnumber', ← hnetwork',
      ← hnumber, ← hnetwork]

/-- The table is not the block of a signal that runs past the end of the other: no other
name is cut to that of a table. -/
theorem not_blockIn_of_overruns {name : NetworkName} {t : Signal}
    (ht : t.Overruns s.memory data) : info.identity ≠ t.blockIn name := by
  intro hid
  have hcut : Name.cut 16 data.identity.block.text = info.identity.block :=
    ht.1.symm.trans (congrArg BlockIdentity.block hid).symm
  have htable : info.identity.block.text = "info" := beq_iff_eq.1 h.table
  refine h.distinct ((Name.cut_text ?_).symm.trans hcut)
  refine Name.isShort_of_size_cut_le ?_
  rw [hcut, htable]
  decide

/-! ### The values in either order -/

theorem find?_blocks (i : BlockIdentity) :
    ((s.dataThenInfo info data).hub.blocks.find? fun m => m.identity = i) =
      (s.infoThenData info data).hub.blocks.find? fun m => m.identity = i := by
  rw [h.blocks_dataThenInfo, h.blocks_infoThenData]
  by_cases hdata : data.identity = i
  · have hinfo : ¬ info.identity = i := fun hinfo =>
      h.distinct (congrArg BlockIdentity.block (hdata.trans hinfo.symm))
    simp [hdata, hinfo]
  · rw [List.find?_cons_of_neg (by simpa using hdata)]
    by_cases hinfo : info.identity = i
    · simp [hinfo]
    · simp [hinfo, hdata]

/-- A signal that does not run past the end of the block has the same value. -/
theorem valueOf_eq {name : NetworkName} {t : Signal}
    (hentered : t ∈ s.entered name (.arrive info.id)) (ht : ¬ t.Overruns s.memory data) :
    (s.dataThenInfo info data).valueOf name t = (s.infoThenData info data).valueOf name t := by
  obtain ⟨hextends, hsize⟩ := h.extends_memory
  unfold valueOf
  rw [h.find?_blocks]
  cases hfind : (s.infoThenData info data).hub.blocks.find? fun m => m.identity = t.blockIn name with
  | none => rfl
  | some m =>
    refine hextends.valueAt_eq fun hid => ?_
    have hmem := List.mem_of_find?_eq_some hfind
    have hidentity : m.identity = t.blockIn name := by
      have hfound := List.find?_some hfind
      rwa [decide_eq_true_eq] at hfound
    rw [h.blocks_infoThenData, List.mem_cons, List.mem_singleton] at hmem
    rcases hmem with rfl | rfl
    · exact absurd hid h.id_ne.symm
    · rw [hsize]
      rw [entered_arrive h.hasInfo] at hentered
      have hblock : t.block = m.identity.block := (congrArg BlockIdentity.block hidentity).symm
      have hshort : m.identity.block.IsShort := hblock ▸ (Hub.of_mem_entered hentered).1
      exact Nat.le_of_not_lt fun hlt => ht ⟨hblock.trans (Name.cut_text hshort).symm, hlt⟩

/-- A signal of the block has a value if it lies within it: as it was, if the table came
first, or as it is when it came first itself. -/
theorem valueOf_ne_unavailable_iff {name : NetworkName} {t : Signal}
    (hid : data.identity = t.blockIn name) :
    ((s.infoThenData info data).valueOf name t ≠ .unavailable ↔
        t.stop ≤ s.memory.size data.id) ∧
      ((s.dataThenInfo info data).valueOf name t ≠ .unavailable ↔
        t.stop ≤ (s.dataThenInfo info data).memory.size data.id) := by
  have hfind : ((s.dataThenInfo info data).hub.blocks.find? fun m => m.identity = t.blockIn name) =
      some data := by
    rw [h.blocks_dataThenInfo]
    exact List.find?_cons_of_pos (decide_eq_true hid)
  constructor
  · rw [Site.valueOf_ne_unavailable_iff, ← h.find?_blocks, hfind, ← h.extends_memory.2]
    simp
  · rw [Site.valueOf_ne_unavailable_iff, hfind]
    simp

/-- One that is kept under the name of the block, but not in it, has no value. -/
theorem valueOf_of_ne {name : NetworkName} {t : Signal} (ht : t.Overruns s.memory data)
    (hid : data.identity ≠ t.blockIn name) :
    (s.infoThenData info data).valueOf name t = .unavailable ∧
      (s.dataThenInfo info data).valueOf name t = .unavailable := by
  have hinfo : info.identity ≠ t.blockIn name := h.not_blockIn_of_overruns ht
  have hfind : ((s.dataThenInfo info data).hub.blocks.find? fun m => m.identity = t.blockIn name) =
      none := by
    rw [h.blocks_dataThenInfo]
    simp [hid, hinfo]
  unfold valueOf
  rw [← h.find?_blocks, hfind]
  exact ⟨rfl, rfl⟩

/-- One that runs past the end of it has none if the table came first. -/
theorem valueOf_of_overruns {name : NetworkName} {t : Signal} (ht : t.Overruns s.memory data) :
    (s.infoThenData info data).valueOf name t = .unavailable := by
  by_cases hid : data.identity = t.blockIn name
  · refine not_not.1 fun hvalue => ?_
    have hstop := (h.valueOf_ne_unavailable_iff hid).1.1 hvalue
    exact absurd hstop (Nat.not_le_of_lt ht.2)
  · exact (h.valueOf_of_ne ht hid).1

/-! ### Paths in either order -/

theorem inOrder (actions : List Action) : (s.run actions).hub.InOrder := by
  refine inOrder_run h.sound ?_ actions
  rw [h.fresh]
  exact inOrder_ofConfig config

theorem selector (actions : List Action) (path : String) :
    (s.run actions).hub.selector .signal path = s.hub.selector .signal path := by
  have hconfig : (s.run actions).hub.config = s.hub.config :=
    (sound_run h.sound actions).configured.trans h.sound.configured.symm
  unfold Hub.selector
  rw [hconfig]

theorem head?_infoThenData (path : String) : ((s.infoThenData info data).hub.matching path).head? =
    Network.firstOf (s.hub.selector .signal path)
      (s.entered (s.hub.selector .signal path).network (.arrive info.id)) := by
  have hs : (s.infoThenData info data).hub.Sound config := sound_run h.sound _
  have hselector : (s.infoThenData info data).hub.selector .signal path = _ := h.selector _ path
  rw [← hselector]
  exact head?_matching hs (h.sameOrder_infoThenData _)

theorem head?_dataThenInfo (path : String) : ((s.dataThenInfo info data).hub.matching path).head? =
    Network.firstOf (s.hub.selector .signal path)
      ((s.act (.arrive data.id)).entered (s.hub.selector .signal path).network
        (.arrive info.id)) := by
  have hs : (s.dataThenInfo info data).hub.Sound config := sound_run h.sound _
  have hselector : (s.dataThenInfo info data).hub.selector .signal path = _ := h.selector _ path
  rw [← hselector]
  exact head?_matching hs (h.sameOrder_dataThenInfo _)

theorem distinct_identities : info.identity ≠ data.identity :=
  fun he => h.distinct (congrArg BlockIdentity.block he.symm)

theorem getPath_run (actions : List Action)
    (hdistinct : ((s.run actions).hub.blocks.map (·.identity)).Nodup) (path : String) :
    ((s.run actions).getPath path).2.1 = ((s.run actions).hub.matching path).head?.elim
      .unavailable ((s.run actions).valueOf (s.hub.selector .signal path).network) := by
  have hvalue := getPath_eq (sound_run h.sound actions) (h.inOrder actions) hdistinct path
  rw [h.selector] at hvalue
  exact hvalue

theorem getPath_infoThenData (path : String) : ((s.infoThenData info data).getPath path).2.1 =
    ((s.infoThenData info data).hub.matching path).head?.elim .unavailable
      ((s.infoThenData info data).valueOf (s.hub.selector .signal path).network) := by
  have hdistinct : ((s.infoThenData info data).hub.blocks.map (·.identity)).Nodup := by
    rw [h.blocks_infoThenData]
    simpa using h.distinct_identities
  unfold infoThenData at hdistinct ⊢
  exact h.getPath_run [.arrive info.id, .arrive data.id] hdistinct path

theorem getPath_dataThenInfo (path : String) : ((s.dataThenInfo info data).getPath path).2.1 =
    ((s.dataThenInfo info data).hub.matching path).head?.elim .unavailable
      ((s.dataThenInfo info data).valueOf (s.hub.selector .signal path).network) := by
  have hdistinct : ((s.dataThenInfo info data).hub.blocks.map (·.identity)).Nodup := by
    rw [h.blocks_dataThenInfo]
    simpa using h.distinct_identities.symm
  unfold dataThenInfo at hdistinct ⊢
  exact h.getPath_run [.arrive data.id, .arrive info.id] hdistinct path

theorem mem_entered_of_head? {path : String} {t : Signal}
    (ht : ((s.infoThenData info data).hub.matching path).head? = some t) :
    t ∈ s.entered (s.hub.selector .signal path).network (.arrive info.id) ∧
      Network.selects (s.hub.selector .signal path) t = true := by
  rw [h.head?_infoThenData] at ht
  obtain ⟨-, hlast, hselects⟩ := Network.firstOf_eq_some ht
  exact ⟨hlast.mem, hselects⟩

/-- A path has the same value if the table does not say of its first match that it
runs past the end of the block. -/
theorem getPath_eq_of_not_overruns (path : String)
    (hover : ∀ t, ((s.infoThenData info data).hub.matching path).head? = some t →
      ∀ u ∈ s.entered (s.hub.selector .signal path).network (.arrive info.id),
        u.identity = t.identity → ¬ u.Overruns s.memory data) :
    ((s.infoThenData info data).getPath path).2.1 =
      ((s.dataThenInfo info data).getPath path).2.1 := by
  have hhead : ((s.dataThenInfo info data).hub.matching path).head? =
      ((s.infoThenData info data).hub.matching path).head? := by
    rw [h.head?_infoThenData] at hover ⊢
    rw [h.head?_dataThenInfo]
    exact (h.leavesOut _).firstOf_eq fun t ht u hu hid hp => hover t ht u hu hid hp.2
  rw [h.getPath_infoThenData, h.getPath_dataThenInfo, hhead]
  cases ht : ((s.infoThenData info data).hub.matching path).head? with
  | none => rw [Option.elim_none, Option.elim_none]
  | some t =>
    have hentered := (h.mem_entered_of_head? ht).1
    rw [Option.elim_some, Option.elim_some, h.valueOf_eq hentered (hover t ht t hentered rfl)]

/-- A path whose first match runs past the end of the block has no value if the table
came first. -/
theorem getPath_of_overruns (path : String) {t : Signal}
    (ht : ((s.infoThenData info data).hub.matching path).head? = some t)
    (hover : t.Overruns s.memory data) :
    ((s.infoThenData info data).getPath path).2.1 = .unavailable := by
  rw [h.getPath_infoThenData, ht, Option.elim_some]
  exact h.valueOf_of_overruns hover

/-- If blocks are grown, the values differ if the block that came first has been
grown past the end of the first match, and its names are short. -/
theorem getPath_ne_iff_of_resizes (hresize : config.resizeBlocks = true) (path : String) :
    ((s.infoThenData info data).getPath path).2.1 ≠ ((s.dataThenInfo info data).getPath path).2.1 ↔
      (data.identity.block.IsShort ∧ data.identity.device.IsShort) ∧
        ∃ t, ((s.infoThenData info data).hub.matching path).head? = some t ∧
          t.Overruns s.memory data ∧ t.stop ≤ (s.dataThenInfo info data).memory.size data.id := by
  have hhead : ((s.dataThenInfo info data).hub.matching path).head? =
      ((s.infoThenData info data).hub.matching path).head? := by
    have hsame := (h.leavesOut (s.hub.selector .signal path).network).eq_of_not fun t hp => by
      rw [hresize] at hp
      cases hp.1
    rw [h.head?_infoThenData, h.head?_dataThenInfo, hsame]
  rw [h.getPath_infoThenData, h.getPath_dataThenInfo, hhead]
  cases ht : ((s.infoThenData info data).hub.matching path).head? with
  | none => simp
  | some t =>
    have hentered := (h.mem_entered_of_head? ht).1
    simp only [Option.elim_some, Option.some_inj, exists_eq_left']
    by_cases hover : t.Overruns s.memory data
    · rw [← h.blockIn_iff_of_overruns hentered hover, and_iff_right hover]
      by_cases hid : data.identity = t.blockIn (s.hub.selector .signal path).network
      · rw [h.valueOf_of_overruns hover, ne_comm, (h.valueOf_ne_unavailable_iff hid).2,
          and_iff_right hid]
      · rw [(h.valueOf_of_ne hover hid).1, (h.valueOf_of_ne hover hid).2]
        simp [hid]
    · rw [h.valueOf_eq hentered hover]
      simp [hover]

/-- If the values differ, the path selects a signal that has a value when the block
comes first: its first match there, or else the one that has a value when the table
does, as that is not left out. -/
theorem exists_of_getPath_ne (path : String)
    (hne : ((s.infoThenData info data).getPath path).2.1 ≠
      ((s.dataThenInfo info data).getPath path).2.1) :
    ∃ t ∈ (s.dataThenInfo info data).hub.matching path,
      (s.dataThenInfo info data).valueOf (s.hub.selector .signal path).network t ≠ .unavailable := by
  rw [h.getPath_infoThenData, h.getPath_dataThenInfo] at hne
  by_contra hall
  have hnone : ∀ t ∈ (s.dataThenInfo info data).hub.matching path,
      (s.dataThenInfo info data).valueOf (s.hub.selector .signal path).network t = .unavailable :=
    fun t ht => not_not.1 fun hvalue => hall ⟨t, ht, hvalue⟩
  have hsecond : ((s.dataThenInfo info data).hub.matching path).head?.elim .unavailable
      ((s.dataThenInfo info data).valueOf (s.hub.selector .signal path).network) = .unavailable := by
    cases ht : ((s.dataThenInfo info data).hub.matching path).head? with
    | none => rw [Option.elim_none]
    | some t => rw [Option.elim_some, hnone t (List.mem_of_head? ht)]
  rw [hsecond] at hne
  cases ht : ((s.infoThenData info data).hub.matching path).head? with
  | none =>
    rw [ht, Option.elim_none] at hne
    exact hne rfl
  | some t =>
    rw [ht, Option.elim_some] at hne
    have hentered := (h.mem_entered_of_head? ht).1
    have hover : ¬ t.Overruns s.memory data := fun hover => hne (h.valueOf_of_overruns hover)
    have hkept : t ∈ (s.dataThenInfo info data).hub.matching path := by
      rw [h.head?_infoThenData] at ht
      obtain ⟨hname, hlast, hselects⟩ := Network.firstOf_eq_some ht
      have hs : (s.dataThenInfo info data).hub.Sound config := sound_run h.sound _
      have hselector : (s.dataThenInfo info data).hub.selector .signal path = _ := h.selector _ path
      have horder := h.sameOrder_dataThenInfo (s.hub.selector .signal path).network
      rw [← hselector] at hname hselects hlast horder
      refine (mem_matching_iff hs horder t).2 ⟨hname, ?_, hselects⟩
      exact (h.leavesOut _).lastOf hlast fun hp => hover hp.2
    rw [← h.valueOf_eq hentered hover] at hne
    exact hne (hnone t hkept)

end Arrivals

/-- **The order of arrival matters only for a signal that runs past the end of the
block.** A hub that holds nothing is told of the table of a device and of a block of its
data, in either order. A path has the same value afterwards unless its first match,
when the table came first, is declared somewhere in the table to run past the end of
the block. It has none then if the match runs past the end as it was entered last. If
blocks are grown, the values differ exactly if it does and ends within the block as it is
when it came first, and the names of block and device are short. In any case they differ
only if the path selects a signal that has a value when the block came first. -/
theorem arrival_order (h : s.Arrivals config info data) (path : String) :
    let ids := s.hub.selector .signal path
    let s₁ := s.infoThenData info data
    let s₂ := s.dataThenInfo info data
    ((∀ t, (s₁.hub.matching path).head? = some t →
        ∀ u ∈ s.entered ids.network (.arrive info.id), u.identity = t.identity →
          ¬ u.Overruns s.memory data) → (s₁.getPath path).2.1 = (s₂.getPath path).2.1) ∧
    (∀ t, (s₁.hub.matching path).head? = some t → t.Overruns s.memory data →
      (s₁.getPath path).2.1 = .unavailable) ∧
    (config.resizeBlocks = true → ((s₁.getPath path).2.1 ≠ (s₂.getPath path).2.1 ↔
      (data.identity.block.IsShort ∧ data.identity.device.IsShort) ∧
        ∃ t, (s₁.hub.matching path).head? = some t ∧ t.Overruns s.memory data ∧
          t.stop ≤ s₂.memory.size data.id)) ∧
    ((s₁.getPath path).2.1 ≠ (s₂.getPath path).2.1 →
      ∃ t ∈ s₂.hub.matching path, s₂.valueOf ids.network t ≠ .unavailable) := by
  have hsame := h.getPath_eq_of_not_overruns path
  have hgrown := fun hresize => h.getPath_ne_iff_of_resizes hresize path
  have hvalue := h.exists_of_getPath_ne path
  exact ⟨hsame, fun t => h.getPath_of_overruns path, hgrown, hvalue⟩

/-! ### A signal that is declared twice -/

/-- A table and a block of 32 bytes have been published. -/
def published (resizes : Bool) (table : Block) : Site :=
  (ofConfig { Config.default with resizeBlocks := resizes }).run
    [.publish table, .publish (dataBlock "gina" 1)]

/-- The table of a device that declares its signal twice, first within 32 bytes and then
past them. -/
def twiceTable : Block := { infoBlock "gina" 1 with
  bytes := Utf8.ofString ("\x7b\"mblk\":[\x7b\"name\":\"exp\",\"groups\":[\x7b\"signals\":[" ++
    "\x7b\"name\":\"t\"\x7d,\x7b\"name\":\"t\",\"addr\":60\x7d]\x7d]\x7d]\x7d") }

def infoRef : BlockRef := ⟨0, (infoBlock "gina" 1).identity⟩

def dataRef : BlockRef := ⟨1, (dataBlock "gina" 1).identity⟩

/-- The signal of the table, as it is declared the second time. -/
def lateSignal : Signal := { dataSignal with address := 60 }

def onceLayout : Layout := ⟨"exp", [⟨"t", 0, 1, 1, .ushort⟩], 3⟩

def twiceLayout : Layout := ⟨"exp", [⟨"t", 0, 1, 1, .ushort⟩, ⟨"t", 60, 1, 1, .ushort⟩], 63⟩

theorem parse_tables : Layout.parse (infoBlock "gina" 1).bytes = .ok [onceLayout] ∧
    Layout.parse twiceTable.bytes = .ok [twiceLayout] := by decide +kernel

theorem accepts_infoRef : Network.Accepts infoRef.identity.network := by
  show Network.Accepts (.cut 24 "n")
  decide

theorem arrivals_published (resizes : Bool) {table : Block}
    (hidentity : table.identity = (infoBlock "gina" 1).identity) {layouts : List Layout}
    (hparse : Layout.parse table.bytes = .ok layouts) : (published resizes table).Arrivals
      { Config.default with resizeBlocks := resizes } infoRef dataRef := by
  have hs : (published resizes table).hub.Sound { Config.default with resizeBlocks := resizes } :=
    Hub.sound_ofConfig _
  have hr : (published resizes table).Recorded := fun b hb => absurd hb List.not_mem_nil
  have hinfo : (published resizes table).memory.ref? infoRef.id = some infoRef := by
    rw [infoRef, ← hidentity]
    rfl
  have hdata : (published resizes table).memory.ref? dataRef.id = some dataRef := rfl
  have htable : infoRef.identity.holdsTable = true := by decide
  have hmemory := memory_act_data hs hdata (by decide)
  -- The allocator grants every size.
  have hgrants : ∀ layouts, (published resizes table).memory.GrantsLayouts layouts :=
    fun _ _ _ _ => rfl
  refine ⟨rfl, hinfo, hdata, htable, by decide, ?_, ?_, ?_⟩
  · intro he
    have htext : dataRef.identity.block.text = infoRef.identity.block.text := congrArg Name.text he
    revert htext
    decide
  · exact (accepted_iff hs hr hinfo rfl htable fun l _ => hgrants l).2 ⟨accepts_infoRef, layouts, hparse⟩
  · have hnew : ((published resizes table).act (.arrive dataRef.id)).hub.holds infoRef.id = false := by
      unfold Hub.holds
      rw [blocks_act_arrive hs hdata rfl]
      rfl
    refine (accepted_iff (sound_act hs _) (recorded_act hs hr _) (ref?_act hs _ hinfo) hnew htable
      fun l _ => ?_).2 ⟨accepts_infoRef, layouts, ?_⟩
    · rw [hmemory]
      exact hgrants l
    · rw [hmemory]
      exact hparse

theorem selector_published (resizes : Bool) (table : Block) :
    (published resizes table).hub.selector .signal "t.exp.gina1.n" = ginaPath := by
  have hfallback : (published resizes table).hub.config.defaultNetwork =
      Config.default.defaultNetwork := rfl
  unfold Hub.selector
  rw [hfallback]
  decide

theorem blockIn_ginaPath : dataRef.identity = dataSignal.blockIn ginaPath.network := by decide

theorem isShort_dataRef : dataRef.identity.block.IsShort ∧ dataRef.identity.device.IsShort := by
  constructor
  · decide
  · decide

theorem overruns_lateSignal (resizes : Bool) (table : Block) :
    lateSignal.Overruns (published resizes table).memory dataRef := by
  refine ⟨rfl, ?_⟩
  have hsize : (published resizes table).memory.size dataRef.id = 32 := rfl
  have hstop : lateSignal.stop = 63 := by decide
  omega

theorem not_overruns_dataSignal (resizes : Bool) (table : Block) :
    ¬ dataSignal.Overruns (published resizes table).memory dataRef := by
  intro hover
  have hlt := hover.2
  have hsize : (published resizes table).memory.size dataRef.id = 32 := rfl
  have hstop : dataSignal.stop = 3 := by decide
  omega

/-- If the table comes first, it enters what it declares for a hub without blocks. -/
theorem Arrivals.entered_published {resizes : Bool} {table : Block} {layouts : List Layout}
    (h : (published resizes table).Arrivals config infoRef dataRef)
    (hparse : Layout.parse table.bytes = .ok layouts) :
    (published resizes table).entered infoRef.identity.network (.arrive infoRef.id) =
      (published resizes table).hub.placedBy (published resizes table).memory infoRef layouts :=
  (entered_arrive h.hasInfo).trans (Hub.entered_eq_placedBy rfl h.table accepts_infoRef hparse)

theorem arrivals_once (resizes : Bool) : (published resizes (infoBlock "gina" 1)).Arrivals
    { Config.default with resizeBlocks := resizes } infoRef dataRef :=
  arrivals_published resizes rfl parse_tables.1

theorem arrivals_twice (resizes : Bool) : (published resizes twiceTable).Arrivals
    { Config.default with resizeBlocks := resizes } infoRef dataRef :=
  arrivals_published resizes rfl parse_tables.2

theorem entered_once (resizes : Bool) :
    (published resizes (infoBlock "gina" 1)).entered ginaPath.network (.arrive infoRef.id) =
      [dataSignal] := by
  refine ((arrivals_once resizes).entered_published parse_tables.1).trans ?_
  cases resizes <;> decide

theorem entered_twice (resizes : Bool) :
    (published resizes twiceTable).entered ginaPath.network (.arrive infoRef.id) =
      [dataSignal, lateSignal] := by
  refine ((arrivals_twice resizes).entered_published parse_tables.2).trans ?_
  cases resizes <;> decide

theorem entered_twice_last : ((published false twiceTable).act (.arrive dataRef.id)).entered
    ginaPath.network (.arrive infoRef.id) = [dataSignal] := by
  decide +kernel

/-- The signal is listed as it is declared the second time if the table came first. -/
theorem head?_twice (resizes : Bool) :
    (((published resizes twiceTable).infoThenData infoRef dataRef).hub.matching
      "t.exp.gina1.n").head? = some lateSignal := by
  rw [(arrivals_twice resizes).head?_infoThenData, selector_published, entered_twice]
  decide

/-- If blocks are grown, the signal lies within the block that came first. -/
theorem stop_le_twice : lateSignal.stop ≤
    ((published true twiceTable).dataThenInfo infoRef dataRef).memory.size dataRef.id := by
  have hname : dataRef.identity.block.text = twiceLayout.block := by decide
  have hstop : lateSignal.stop = twiceLayout.size.toNat := by decide
  rw [hstop]
  exact (arrivals_twice true).size_le_of_resizes rfl parse_tables.2 List.mem_cons_self hname

/-- If they are not, the second declaration is left out. -/
theorem head?_twice_last :
    (((published false twiceTable).dataThenInfo infoRef dataRef).hub.matching
      "t.exp.gina1.n").head? = some dataSignal := by
  rw [(arrivals_twice false).head?_dataThenInfo, selector_published, entered_twice_last]
  decide

theorem getPath_twice_ne (resizes : Bool) :
    (((published resizes twiceTable).infoThenData infoRef dataRef).getPath "t.exp.gina1.n").2.1 ≠
      (((published resizes twiceTable).dataThenInfo infoRef dataRef).getPath "t.exp.gina1.n").2.1 := by
  have h := arrivals_twice resizes
  have hlate := overruns_lateSignal resizes twiceTable
  cases resizes with
  | true =>
    exact (h.getPath_ne_iff_of_resizes rfl _).2
      ⟨isShort_dataRef, lateSignal, head?_twice true, hlate, stop_le_twice⟩
  | false =>
    rw [h.getPath_infoThenData, h.getPath_dataThenInfo, head?_twice, head?_twice_last,
      Option.elim_some, Option.elim_some, selector_published]
    rw [h.valueOf_of_overruns hlate, ne_comm,
      (h.valueOf_ne_unavailable_iff blockIn_ginaPath).2]
    calc dataSignal.stop ≤ (published false twiceTable).memory.size dataRef.id := by decide
      _ = ((published false twiceTable).infoThenData infoRef dataRef).memory.size dataRef.id :=
        h.extends_memory.2.symm
      _ ≤ _ := h.extends_memory.1.size_le

/-- A table whose signal lies within the block gives it one value, and one that declares
it past the end as well gives it two. -/
theorem arrival_order_published :
    let once := published false (infoBlock "gina" 1)
    let twice := published true twiceTable
    ((once.infoThenData infoRef dataRef).getPath "t.exp.gina1.n").2.1 =
        ((once.dataThenInfo infoRef dataRef).getPath "t.exp.gina1.n").2.1 ∧
      ((twice.infoThenData infoRef dataRef).getPath "t.exp.gina1.n").2.1 ≠
        ((twice.dataThenInfo infoRef dataRef).getPath "t.exp.gina1.n").2.1 := by
  obtain ⟨hsame, -⟩ := arrival_order (arrivals_once false) "t.exp.gina1.n"
  obtain ⟨-, -, hgrown, -⟩ := arrival_order (arrivals_twice true) "t.exp.gina1.n"
  constructor
  · refine hsame fun t _ u hu _ => ?_
    rw [selector_published, entered_once, List.mem_singleton] at hu
    rw [hu]
    exact not_overruns_dataSignal false _
  · exact (hgrown rfl).2 ⟨isShort_dataRef, lateSignal, head?_twice true,
      overruns_lateSignal true twiceTable, stop_le_twice⟩

/-- Every path has the same value in either order. -/
def OrderIrrelevant (config : Config) : Prop :=
  ∀ (s : Site) (info data : BlockRef) (path : String), s.Arrivals config info data →
    ((s.infoThenData info data).getPath path).2.1 = ((s.dataThenInfo info data).getPath path).2.1

/-- Not every path has, whether blocks are grown or not. -/
theorem order_matters : ¬ OrderIrrelevant { Config.default with resizeBlocks := true } ∧
    ¬ OrderIrrelevant { Config.default with resizeBlocks := false } := by
  constructor
  · intro hall
    exact getPath_twice_ne true (hall _ _ _ _ (arrivals_twice true))
  · intro hall
    exact getPath_twice_ne false (hall _ _ _ _ (arrivals_twice false))

end Site
end SignalRegistry
