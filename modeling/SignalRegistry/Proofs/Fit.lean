/-
# Signals that fit their block

When the table of a device is accepted, its signals are placed in the table of
the network, except those that run past the end of their block. If blocks are to
be grown, none is left out, and every block is grown to its layout instead.
Either way a placed signal ends within the first block of its name
(`Hub.Arrival.placed_contains`), provided that the names are short: the block is
looked up by the name in the table and by the name of the device, but the signal
is kept under what is left of them within 15 bytes. A signal under a name that
no block has is placed wherever it ends (`Hub.unnamed_placed`).

Blocks are grown as far as the allocator grants it. That it does is a named
assumption (`Memory.GrantsLayouts`) of what says that a table is accepted.

Key definitions: `Memory.GrantsLayouts`, `BlockIdentity.Overlong`,
`Hub.placedBy`, `Hub.Contains`.
Key theorems: `Memory.grow_ok`, `Hub.growBlocks_ok`, `Hub.growBlocks_isOk`,
`Hub.Arrival.accepted_iff`, `Hub.Arrival.placed_contains`,
`Hub.Arrival.mem_signalsOf_iff`, `Site.placed_fit_iff`.
-/
import SignalRegistry.Proofs.Isolation
import SignalRegistry.Proofs.Layout

namespace SignalRegistry

open Registry (declared signalOf fits)
open Network (placed LastOf)

/-- A block can be grown to any size below the largest that the allocator grants. -/
theorem Block.exists_growWithin (m : Block) {grants : Nat → Bool} {size : Nat} (h : size < limit)
    (hgrants : grants (max size leastSize) = true) : ∃ grown, m.growWithin grants size = .ok grown := by
  have hlimit : max size leastSize < limit := Nat.max_lt.2 ⟨h, by decide⟩
  unfold growWithin
  simp only [hgrants, hlimit, decide_true, Bool.and_true, if_true]
  split
  · exact ⟨m, rfl⟩
  · exact ⟨_, rfl⟩

/-- The signals of a device are kept under a cut name, if the table gives a block
this name: it is too long, or the name of the device is. -/
def BlockIdentity.Overlong (i : BlockIdentity) (name : String) : Prop :=
  15 < name.utf8ByteSize ∨ 15 < i.device.text.utf8ByteSize

namespace Memory

theorem size_eq_of_block? {m : Memory} {id : Nat} {b : Block} (hb : m.block? id = some b) :
    m.size id = b.size := by
  unfold size bytes
  rw [hb]
  rfl

theorem size_of_block?_eq_none {m : Memory} {id : Nat} (hb : m.block? id = none) :
    m.size id = 0 := by
  unfold size bytes
  rw [hb]
  rfl

/-- A change concerns its own block only. -/
theorem block?_change_of_ne (m : Memory) {id k : Nat} (hk : k ≠ id)
    (f : Block → Except Error Block) : (m.change id f).1.block? k = m.block? k := by
  unfold change
  split
  · rfl
  · split
    · exact Array.getElem?_setIfInBounds_ne hk.symm
    · rfl

/-- A change that succeeds has found its block and changed its bytes. -/
theorem block?_change_ok {m m' : Memory} {id : Nat} {f : Block → Except Error Block}
    (h : m.change id f = (m', .ok ())) : ∃ b changed, m.block? id = some b ∧ f b = .ok changed ∧
      m'.block? id = some { changed with identity := b.identity } := by
  unfold change at h
  cases hb : m.block? id with
  | none =>
    simp only [hb] at h
    cases h
  | some b =>
    simp only [hb] at h
    cases hf : f b with
    | error e =>
      simp only [hf] at h
      cases h
    | ok changed =>
      simp only [hf] at h
      obtain rfl := (Prod.mk.inj h).1
      have hb' : m.blocks[id]? = some b := hb
      have hlt : id < m.blocks.size := (Array.getElem?_eq_some_iff.1 hb').1
      exact ⟨b, changed, rfl, hf, Array.getElem?_setIfInBounds_self_of_lt hlt⟩

/-- A change that fails changes nothing. -/
theorem change_eq_or_ok (m : Memory) (id : Nat) (f : Block → Except Error Block) :
    (m.change id f).1 = m ∨ m.change id f = ((m.change id f).1, .ok ()) := by
  unfold change
  split
  · exact Or.inl rfl
  · split
    · exact Or.inr rfl
    · exact Or.inl rfl

/-- No block shrinks by a change that does not shrink its own. -/
theorem size_le_change (m : Memory) (id : Nat) {f : Block → Except Error Block}
    (hf : ∀ b b', f b = .ok b' → b.size ≤ b'.size) (k : Nat) :
    m.size k ≤ (m.change id f).1.size k := by
  rcases m.change_eq_or_ok id f with hsame | hok
  · rw [hsame]
  by_cases hk : k = id
  · obtain ⟨b, b', hb, hchange, hb'⟩ := block?_change_ok hok
    rw [hk, size_eq_of_block? hb, size_eq_of_block? hb']
    exact hf b b' hchange
  · unfold size bytes
    rw [m.block?_change_of_ne hk]

/-- No block shrinks when one is grown, even if that fails. -/
theorem size_le_grow (m : Memory) (id n k : Nat) : m.size k ≤ (m.grow id n).1.size k :=
  m.size_le_change id (fun _ _ hgrow => (Block.size_le_of_growWithin hgrow).1) k

/-- A block that is grown reaches the size asked for, and no block shrinks. -/
theorem grow_ok {m m' : Memory} {id n : Nat} (h : m.grow id n = (m', .ok ())) :
    (∀ k, m.size k ≤ m'.size k) ∧ n ≤ m'.size id := by
  constructor
  · intro k
    have hmono := m.size_le_grow id n k
    rwa [h] at hmono
  · unfold grow at h
    obtain ⟨b, b', -, hgrow, hb'⟩ := block?_change_ok h
    rw [size_eq_of_block? hb']
    exact (Block.size_le_of_growWithin hgrow).2

/-- The allocator lets every block grow to the size of each layout. -/
def GrantsLayouts (m : Memory) (layouts : List Layout) : Prop :=
  ∀ id, ∀ l ∈ layouts, m.grants id (max l.size.toNat Block.leastSize) = true

theorem grants_change (m : Memory) (id : Nat) (f : Block → Except Error Block) :
    (m.change id f).1.grants = m.grants := by
  unfold change
  split
  · rfl
  · split <;> rfl

end Memory

namespace Registry

/-- The signals of a network, none if it is not there. -/
def signalsOf (r : Registry) (network : String) : List Signal :=
  ((r.named? network).map fun n => n.signals.items).getD []

theorem signalsOf_of_named? {r : Registry} {name : String} {n : Network}
    (hn : r.named? name = some n) : r.signalsOf name = n.signals.items := by
  unfold signalsOf
  rw [hn, Option.map_some, Option.getD_some]

/-- A network that is created has no signal. -/
theorem signalsOf_provided {r : Registry} (hr : r.WellFormed) {name : String} {n : Network}
    (hp : r.provided name = .ok n) : r.signalsOf name = n.signals.items := by
  obtain ⟨-, -, hn | ⟨hnone, hnew⟩⟩ := provided_eq_ok hr hp
  · exact signalsOf_of_named? hn
  · unfold signalsOf
    rw [hnone, (Network.ofName_eq_ok hnew).1]
    exact Index.items_empty.symm

end Registry

namespace Hub

variable {hub : Hub} {alive : Nat → Bool} {memory : Memory} {block : BlockRef}

/-- The signals of the table of a block that fit their blocks when it comes. -/
def placedBy (hub : Hub) (memory : Memory) (block : BlockRef) (layouts : List Layout) :
    List Signal :=
  placed (declared block.identity ((hub.receive block).sizeBound memory block.identity) layouts)

/-- The signal ends within the first block of its name, device and number in a
network, if there is one. -/
def Contains (hub : Hub) (memory : Memory) (network : String) (s : Signal) : Prop :=
  ∀ b, hub.blockNamed? s.block.text s.device.text s.number network = some b →
    s.stop ≤ memory.size b.id

/-- A device has no block of a name that no block has. -/
theorem deviceBlock?_eq_none {i : BlockIdentity} {name : String}
    (h : ∀ b ∈ hub.blocks, b.identity.block.text ≠ name) : hub.deviceBlock? i name = none := by
  unfold deviceBlock? blockNamed?
  rw [List.find?_eq_none]
  intro b hb hmatch
  simp only [BlockIdentity.isOf, Bool.and_eq_true, beq_iff_eq] at hmatch
  exact h b hb hmatch.2.1.1

/-- Layouts of which the first has no block. -/
theorem growBlocks_of_none {i : BlockIdentity} {l : Layout} (hblock : hub.deviceBlock? i l.block = none)
    (memory : Memory) (more : List Layout) :
    hub.growBlocks i memory (l :: more) = hub.growBlocks i memory more := by
  rw [growBlocks]
  simp only [hblock]

/-- Layouts of which the first has a block, if all can be grown. -/
theorem growBlocks_of_some {i : BlockIdentity} {l : Layout} {more : List Layout} {b : BlockRef}
    {memory grown : Memory} (hblock : hub.deviceBlock? i l.block = some b)
    (h : hub.growBlocks i memory (l :: more) = (grown, .ok ())) : ∃ next,
      memory.grow b.id l.size.toNat = (next, .ok ()) ∧
        hub.growBlocks i next more = (grown, .ok ()) := by
  rw [growBlocks] at h
  simp only [hblock] at h
  generalize memory.grow b.id l.size.toNat = change at h
  obtain ⟨next, result⟩ := change
  cases result with
  | error e => cases h
  | ok _ => exact ⟨next, rfl, h⟩

/-- No block shrinks while blocks are grown, and each block of the layouts
reaches its size unless that fails. -/
theorem growBlocks_ok (hub : Hub) (i : BlockIdentity) {layouts : List Layout}
    {memory grown : Memory} (h : hub.growBlocks i memory layouts = (grown, .ok ())) :
    (∀ k, memory.size k ≤ grown.size k) ∧ ∀ l ∈ layouts, ∀ b,
      hub.deviceBlock? i l.block = some b → l.size.toNat ≤ grown.size b.id := by
  induction layouts generalizing memory with
  | nil =>
    cases h
    exact ⟨fun k => Nat.le_refl _, fun l hl => absurd hl List.not_mem_nil⟩
  | cons l more ih =>
    cases hblock : hub.deviceBlock? i l.block with
    | none =>
      rw [growBlocks_of_none hblock] at h
      obtain ⟨hmono, hmore⟩ := ih h
      refine ⟨hmono, fun l' hl' b hb => ?_⟩
      rcases List.mem_cons.1 hl' with rfl | hl'
      · rw [hblock] at hb
        cases hb
      · exact hmore l' hl' b hb
    | some b =>
      obtain ⟨next, hchange, hrest⟩ := growBlocks_of_some hblock h
      obtain ⟨hmono, hmore⟩ := ih hrest
      obtain ⟨hnext, hsize⟩ := Memory.grow_ok hchange
      constructor
      · intro k
        calc memory.size k ≤ next.size k := hnext k
          _ ≤ grown.size k := hmono k
      · intro l' hl' b' hb'
        rcases List.mem_cons.1 hl' with rfl | hl'
        · rw [hblock, Option.some_inj] at hb'
          subst hb'
          calc l'.size.toNat ≤ next.size b.id := hsize
            _ ≤ grown.size b.id := hmono b.id
        · exact hmore l' hl' b' hb'

/-- Blocks that are there can be grown as far as the allocator grants it: no layout is
as large as the largest block. -/
theorem growBlocks_isOk (hub : Hub) (i : BlockIdentity) {layouts : List Layout} {memory : Memory}
    (hblocks : ∀ b ∈ hub.blocks, memory.ref? b.id = some b) (hgrants : memory.GrantsLayouts layouts) :
    (hub.growBlocks i memory layouts).2 = .ok () := by
  induction layouts generalizing memory with
  | nil => rfl
  | cons l more ih =>
    cases hblock : hub.deviceBlock? i l.block with
    | none =>
      rw [growBlocks_of_none hblock]
      exact ih hblocks fun id l' hl' => hgrants id l' (List.mem_cons_of_mem _ hl')
    | some b =>
      obtain ⟨block, hmem, -⟩ := Option.map_eq_some_iff.1 (hblocks b (blockNamed?_eq_some hblock).1)
      have hsize : l.size.toNat < Block.limit :=
        Nat.lt_trans l.size.toNat_lt (by decide : UInt32.size < Block.limit)
      obtain ⟨grown, hgrow⟩ :=
        block.exists_growWithin hsize (hgrants b.id l List.mem_cons_self)
      have hchange : memory.grow b.id l.size.toNat =
          ((memory.grow b.id l.size.toNat).1, .ok ()) := by
        unfold Memory.grow Memory.change
        simp only [hmem, hgrow]
      have hkept : ∀ b' ∈ hub.blocks,
          (memory.grow b.id l.size.toNat).1.ref? b'.id = some b' := fun b' hb' =>
        (memory.ref?_change b.id b'.id _).trans (hblocks b' hb')
      have hmore : (memory.grow b.id l.size.toNat).1.GrantsLayouts more := fun id l' hl' => by
        rw [Memory.grow, Memory.grants_change]
        exact hgrants id l' (List.mem_cons_of_mem _ hl')
      rw [growBlocks]
      simp only [hblock]
      rw [hchange]
      exact ih hkept hmore

/-- A new table is accepted exactly if it can be read and its network can have its
name, as far as the allocator grants the sizes of its layouts. -/
theorem Arrival.accepted_iff {out : Hub × Memory × Except Error Unit × Journal}
    (ha : Arrival alive hub memory block out) (hr : hub.registry.WellFormed)
    (hnew : hub.holds block.id = false) (htable : block.identity.holdsTable = true)
    (hblocks : ∀ b ∈ (hub.receive block).blocks, memory.ref? b.id = some b)
    (hgrants : ∀ layouts, Layout.parse (memory.bytes block.id) = .ok layouts →
      memory.GrantsLayouts layouts) :
    out.2.2.1 = .ok () ↔ Network.Accepts block.identity.network ∧
      ∃ layouts, Layout.parse (memory.bytes block.id) = .ok layouts := by
  cases ha with
  | known held =>
    rw [hnew] at held
    cases held
  | data new kind updates notices =>
    rw [htable] at kind
    cases kind
  | rejected new kind reason notices =>
    refine iff_of_false (fun herror => by cases herror) ?_
    rintro ⟨hname, layouts, hparse⟩
    rcases reason with hwhy | hrefused
    · rw [hparse] at hwhy
      cases hwhy
    · exact hrefused hname
  | @registered new kind layouts n m r grown result journal table before after updates growth notices =>
    refine iff_of_true ?_ ⟨Registry.accepts_of_provided hr before, layouts, table⟩
    show result = .ok ()
    have hresult := congrArg Prod.snd growth
    simp only at hresult
    rw [hresult]
    split
    · exact growBlocks_isOk _ _ hblocks (hgrants layouts table)
    · rfl

/-- What is placed ends within its block, unless the block has too long a name in
the table, or its device has: it was checked against the size of the block, or the
block was grown to its layout. -/
theorem Arrival.placed_contains {out : Hub × Memory × Except Error Unit × Journal}
    (ha : Arrival alive hub memory block out) (hnew : hub.holds block.id = false)
    (htable : block.identity.holdsTable = true) (hok : out.2.2.1 = .ok ())
    {layouts : List Layout} (hparse : Layout.parse (memory.bytes block.id) = .ok layouts)
    {s : Signal} (hs : s ∈ hub.placedBy memory block layouts) :
    (∃ l ∈ layouts, block.identity.Overlong l.block ∧
      ∃ p ∈ l.signals, s = signalOf block.identity l.block p) ∨
    out.1.Contains out.2.1 block.identity.network.text s := by
  obtain ⟨l, hl, p, hp, rfl, hfits⟩ := Registry.mem_placed_declared_iff.1 hs
  by_cases hlong : block.identity.Overlong l.block
  · exact Or.inl ⟨l, hl, hlong, p, hp, rfl⟩
  right
  intro b hb
  -- The names are kept whole, so it is the block that was looked up before.
  rw [BlockIdentity.Overlong, not_or, Nat.not_lt, Nat.not_lt] at hlong
  have hname : (signalOf block.identity l.block p).block.text = l.block :=
    (Name.cut_text_eq_iff l.block).2 hlong.1
  have hdevice : (signalOf block.identity l.block p).device = block.identity.device :=
    Name.cut_text hlong.2
  have hblock : (hub.receive block).deviceBlock? block.identity l.block = some b := by
    have hblocks : out.1.blocks = (hub.receive block).blocks := by
      rw [ha.blocks, hnew, if_neg Bool.false_ne_true]
      rfl
    unfold blockNamed? at hb
    rw [hname, hdevice, hblocks] at hb
    exact hb
  have hstop : (signalOf block.identity l.block p).stop ≤ l.size.toNat :=
    Layout.stop_le_size hparse hl hp
  obtain ⟨layouts', n, hparse', -, -, hgrowth⟩ := ha.accepted hnew htable (by simp [hok])
  rw [hparse, Except.ok.injEq] at hparse'
  subst hparse'
  rw [hok] at hgrowth
  by_cases hresize : hub.config.resizeBlocks = true
  · rw [if_pos hresize] at hgrowth
    have hgrown := (growBlocks_ok (hub.receive block) block.identity hgrowth.symm).2 l hl b hblock
    calc (signalOf block.identity l.block p).stop
        ≤ l.size.toNat := hstop
      _ ≤ out.2.1.size b.id := hgrown
  · rw [if_neg hresize, Prod.mk.injEq] at hgrowth
    have hbound : (hub.receive block).sizeBound memory block.identity l.block =
        some (memory.size b.id) := by
      have hconfig : ¬ (hub.receive block).config.resizeBlocks = true := hresize
      unfold sizeBound
      rw [if_neg hconfig, hblock, Option.map_some]
    rw [hbound] at hfits
    rw [hgrowth.1]
    exact of_decide_eq_true hfits

/-- A signal is placed wherever it ends if no block has the name in the table. -/
theorem unnamed_placed (hub : Hub) (memory : Memory) (block : BlockRef) {layouts : List Layout}
    {l : Layout} (hl : l ∈ layouts)
    (hnone : ∀ b ∈ (hub.receive block).blocks, b.identity.block.text ≠ l.block) {p : Placement}
    (hp : p ∈ l.signals) :
    signalOf block.identity l.block p ∈ hub.placedBy memory block layouts := by
  refine Registry.mem_placed_declared_iff.2 ⟨l, hl, p, hp, rfl, ?_⟩
  have hbound : (hub.receive block).sizeBound memory block.identity l.block = none := by
    unfold sizeBound
    rw [deviceBlock?_eq_none hnone, Option.map_none, ite_self]
  rw [hbound]
  rfl

/-- After a device is registered, the table of its network has the last signal
that was placed of each identity, and what was there before of others. -/
theorem Arrival.mem_signalsOf_iff {out : Hub × Memory × Except Error Unit × Journal}
    (ha : Arrival alive hub memory block out) (hr : hub.registry.WellFormed)
    (hnew : hub.holds block.id = false) (htable : block.identity.holdsTable = true)
    (hok : ∀ why, out.2.2.1 ≠ .error (.malformed why)) : ∃ layouts,
      Layout.parse (memory.bytes block.id) = .ok layouts ∧
      ∀ t, t ∈ out.1.registry.signalsOf block.identity.network.text ↔
        LastOf (hub.placedBy memory block layouts) t ∨
          t ∈ hub.registry.signalsOf block.identity.network.text ∧
            ∀ u ∈ hub.placedBy memory block layouts, u.identity ≠ t.identity := by
  obtain ⟨layouts, n, hparse, hbefore, hupdates, -⟩ := ha.accepted hnew htable hok
  refine ⟨layouts, hparse, fun t => ?_⟩
  have hwf : n.WellFormed := (Registry.provided_eq_ok hr hbefore).2.1
  have hafter := Registry.signalsOf_of_named? ((hupdates.named _).trans (if_pos rfl))
  rw [hafter, Network.register_signals, Registry.signalsOf_provided hr hbefore]
  exact Network.mem_items_putSignals_iff hwf _ t

end Hub

namespace Site

/-- **A placed signal ends within its block, unless a name is too long.** The
table of a device is accepted that comes for the first time, after any run. The
network then has the last signal that was placed of each identity, and what it
had before of others. These signals end within their blocks exactly if those do
that are kept under a cut name: the table declares them under a name longer than
15 bytes, or the device has such a name. What the table declares under a name
longer than 15 bytes that no block has is placed, whatever the size of its
block. -/
theorem placed_fit_iff (config : Config) (actions : List Action) {id : Nat} {ref : BlockRef}
    (href : ((ofConfig config).run actions).memory.ref? id = some ref)
    (hnew : ((ofConfig config).run actions).hub.holds id = false)
    (htable : ref.identity.holdsTable = true)
    (hok : (((ofConfig config).run actions).arrive id).2.1 = .ok ()) :
    let s := (ofConfig config).run actions
    let s' := (s.arrive id).1
    let network := ref.identity.network.text
    ∃ layouts, Layout.parse (s.memory.bytes id) = .ok layouts ∧
      let signals := s.hub.placedBy s.memory ref layouts
      (∀ t, t ∈ s'.hub.registry.signalsOf network ↔ LastOf signals t ∨
        t ∈ s.hub.registry.signalsOf network ∧ ∀ u ∈ signals, u.identity ≠ t.identity) ∧
      ((∀ t, LastOf signals t → s'.hub.Contains s'.memory network t) ↔
        ∀ l ∈ layouts, ref.identity.Overlong l.block → ∀ p ∈ l.signals,
          LastOf signals (signalOf ref.identity l.block p) →
            s'.hub.Contains s'.memory network (signalOf ref.identity l.block p)) ∧
      ∀ l ∈ layouts, 15 < l.block.utf8ByteSize →
        (∀ b ∈ s.hub.blocks, b.identity.block.text ≠ l.block) → ∀ p ∈ l.signals,
          signalOf ref.identity l.block p ∈ signals := by
  intro s s' network
  have hs : s.hub.Sound config := sound_run (Hub.sound_ofConfig config) actions
  have harrival := Hub.arrival hs.registry (s.aliveWith id) s.memory ref
  have hid : ref.id = id := Memory.id_of_ref? href
  have hnew' : s.hub.holds ref.id = false := by
    rw [hid]
    exact hnew
  have hhub : s'.hub = (s.hub.arrive (s.aliveWith id) s.memory ref).1 := s.hub_act_arrive href
  have hmemory : s'.memory = (s.hub.arrive (s.aliveWith id) s.memory ref).2.1 := by
    show (s.arrive id).1.memory = _
    rw [s.arrive_eq href]
    exact memory_deliver _ _
  have hok' : (s.hub.arrive (s.aliveWith id) s.memory ref).2.2.1 = .ok () := by
    have hanswer := s.arrive_eq href
    rw [← hok, hanswer]
  obtain ⟨layouts, table, hsignals⟩ :=
    harrival.mem_signalsOf_iff hs.registry hnew' htable (by simp [hok'])
  refine ⟨layouts, by rw [← hid]; exact table, ?_, ?_, ?_⟩
  · rw [hhub]
    exact hsignals
  · rw [hhub, hmemory]
    constructor
    · exact fun hall l _ _ p _ hlast => hall _ hlast
    · intro hlong t hlast
      rcases harrival.placed_contains hnew' htable hok' table hlast.mem with
        ⟨l, hl, hl', p, hp, rfl⟩ | hcontains
      · exact hlong l hl hl' p hp hlast
      · exact hcontains
  · intro l hl hl' hnone p hp
    refine s.hub.unnamed_placed s.memory ref hl (fun b hb hname => ?_) hp
    rcases List.mem_append.1 hb with hb | hb
    · exact hnone b hb hname
    · -- The name of the table's own block is not that long.
      rw [List.mem_singleton.1 hb, beq_iff_eq.1 htable] at hname
      rw [← hname] at hl'
      exact absurd hl' (by decide)

/-! ### A block of 32 bytes -/

/-- A block of data has arrived, and there is the table of its device. -/
def dataArrival : List Action :=
  [.publish (dataBlock "gina" 1), .arrive 0, .publish (infoBlock "gina" 1)]

/-- The signal of the table. -/
def dataSignal : Signal := .ofNames "t" "exp" "gina" 1 0 1 .ushort

/-- The table is not held, and its report places its signal. -/
theorem run_dataArrival :
    ((ofConfig .default).run dataArrival).memory.ref? 1 =
      some ⟨1, (infoBlock "gina" 1).identity⟩ ∧
    ((ofConfig .default).run dataArrival).hub.holds 1 = false ∧
    (Layout.parse (((ofConfig .default).run dataArrival).memory.bytes 1)).map
      (fun layouts => layouts.map Layout.block) = .ok ["exp"] ∧
    ((ofConfig .default).run dataArrival).hub.registry.signalsOf "n" = [] ∧
    (((ofConfig .default).run dataArrival).arrive 1).2.1 = .ok () ∧
    (((ofConfig .default).run dataArrival).arrive 1).1.hub.registry.signalsOf "n" =
      [dataSignal] := by decide +kernel

/-- The signal of the table is placed in the block that came before it. -/
theorem placed_fit_dataArrival :
    let s' := (((ofConfig .default).run dataArrival).arrive 1).1
    dataSignal ∈ s'.hub.registry.signalsOf "n" ∧ s'.hub.Contains s'.memory "n" dataSignal := by
  have hname : (infoBlock "gina" 1).identity.network.text = "n" := text_network
  obtain ⟨href, hnew, hblock, hnone, hok, hplaced⟩ := run_dataArrival
  obtain ⟨layouts, hparse, hsignals, hfit, -⟩ :=
    placed_fit_iff .default dataArrival href hnew (by decide) hok
  rw [hname] at hsignals hfit
  have hblocks : layouts.map Layout.block = ["exp"] := by
    rw [hparse] at hblock
    exact Except.ok.inj hblock
  have hmem : dataSignal ∈
      (((ofConfig .default).run dataArrival).arrive 1).1.hub.registry.signalsOf "n" := by
    rw [hplaced]
    exact List.mem_singleton_self _
  refine ⟨hmem, hfit.2 (fun l hl hlong => ?_) dataSignal ?_⟩
  · -- No name in the table is too long.
    have hexp : l.block ∈ layouts.map Layout.block := List.mem_map_of_mem hl
    rw [hblocks, List.mem_singleton] at hexp
    rw [hexp] at hlong
    rcases hlong with hlong | hlong
    · exact absurd hlong (by decide)
    · exact absurd hlong (by decide)
  · rcases (hsignals dataSignal).1 hmem with hlast | ⟨hbefore, -⟩
    · exact hlast
    · rw [hnone] at hbefore
      exact absurd hbefore List.not_mem_nil

/-- The table of a device that gives its block a name of 16 bytes, with a signal
from byte 60 on. -/
def overlongTable : Block where
  identity := .ofNames "info" "gina" 1 "n"
  bytes := Utf8.ofString ("\x7b\"mblk\":[\x7b\"name\":\"abcdefghijklmnop\",\"groups\":" ++
    "[\x7b\"signals\":[\x7b\"name\":\"t\",\"addr\":60\x7d]\x7d]\x7d]\x7d")

/-- A block with the longest possible name has arrived, and there is the table of
its device, which gives it one byte more. -/
def overlongArrival : List Action :=
  [.publish (.zeros (.ofNames "abcdefghijklmno" "gina" 1 "n") 32), .arrive 0,
    .publish overlongTable]

/-- The signal as it is placed. -/
def overlongSignal : Signal := .ofNames "t" "abcdefghijklmno" "gina" 1 60 1 .ushort

/-- The size of the block of a signal. -/
def sizeOfBlock (s : Site) (network : String) (t : Signal) : Option Nat :=
  (s.hub.blockNamed? t.block.text t.device.text t.number network).map fun b => s.memory.size b.id

/-- The report of the table places its signal, and the block is as small as it was. -/
theorem run_overlongArrival :
    ((ofConfig .default).run overlongArrival).memory.ref? 1 =
      some ⟨1, overlongTable.identity⟩ ∧
    ((ofConfig .default).run overlongArrival).hub.holds 1 = false ∧
    ((ofConfig .default).run overlongArrival).hub.registry.signalsOf "n" = [] ∧
    (((ofConfig .default).run overlongArrival).arrive 1).2.1 = .ok () ∧
    (((ofConfig .default).run overlongArrival).arrive 1).1.hub.registry.signalsOf "n" =
      [overlongSignal] ∧
    (((ofConfig .default).run overlongArrival).arrive 1).1.sizeOfBlock "n" overlongSignal =
      some 32 := by decide +kernel

/-- Not every signal that a table adds ends within its block: one under too long
a name does not. -/
theorem overlong_overrun : ¬ ∀ (config : Config) (actions : List Action) (id : Nat)
    (ref : BlockRef), ((ofConfig config).run actions).memory.ref? id = some ref →
      ((ofConfig config).run actions).hub.holds id = false → ref.identity.holdsTable = true →
      (((ofConfig config).run actions).arrive id).2.1 = .ok () →
      let s := (ofConfig config).run actions
      let s' := (s.arrive id).1
      let network := ref.identity.network.text
      ∀ t ∈ s'.hub.registry.signalsOf network, t ∉ s.hub.registry.signalsOf network →
        s'.hub.Contains s'.memory network t := by
  intro h
  have hname : overlongTable.identity.network.text = "n" := text_network
  obtain ⟨href, hnew, hnone, hok, hplaced, hsize⟩ := run_overlongArrival
  have hcontains := h .default overlongArrival 1 _ href hnew (by decide) hok overlongSignal
  simp only at hcontains
  rw [hname, hnone, hplaced] at hcontains
  obtain ⟨b, hb, hsize⟩ := Option.map_eq_some_iff.1 hsize
  have hle := hcontains (List.mem_singleton_self _) List.not_mem_nil b hb
  have hstop : overlongSignal.stop = 63 := by decide
  omega

end Site
end SignalRegistry
