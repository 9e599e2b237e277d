/-
# Blocks with a shortcut

A network ends with its last shortcut, so it is the shortcuts and not the list
of blocks that decide which block is its last. A block may be held without a
shortcut: it gets one as it comes if it is welcome (`Hub.Welcomes`), and may
get one later when a signal in it is resolved. Once it has one it keeps it
until it goes.

Key definitions: `Registry.Links`, `Hub.Welcomes`, `Hub.LinksAll`.
Key theorems: `Hub.Arrival.links_iff`, `Hub.Departure.links_iff`,
`Hub.Sound.links_resolve`, `Site.links_act`, `Site.linksAll_run`.
-/
import SignalRegistry.Proofs.Reports

namespace SignalRegistry

namespace Registry

variable {r r' : Registry} {name : String} {b : BlockRef}

/-- The network of the block has a shortcut to it. -/
def Links (r : Registry) (b : BlockRef) : Prop :=
  ∃ n, r.named? b.identity.network.text = some n ∧ b ∈ n.shortcuts.blocks

namespace Updates

variable {n? : Option Network}

theorem links_of_ne (hu : r.Updates r' name n?) (hne : b.identity.network.text ≠ name) :
    r'.Links b ↔ r.Links b := by
  unfold Links
  rw [hu.named, if_neg hne]

theorem links_self (hu : r.Updates r' name n?) (he : b.identity.network.text = name) :
    r'.Links b ↔ ∃ n, n? = some n ∧ b ∈ n.shortcuts.blocks := by
  unfold Links
  rw [hu.named, if_pos he]

end Updates

/-- What becomes of a network that forgets a block has the shortcuts that are
left, whether it ends or not. -/
theorem exists_mem_afterForget {alive : Nat → Bool} {n : Network} {block : BlockRef}
    (hn : n.WellFormed) : (∃ m, r.afterForget alive block n = some m ∧ b ∈ m.shortcuts.blocks) ↔
      b ∈ (n.forget alive block).1.shortcuts.blocks := by
  unfold afterForget
  cases he : (n.forget alive block).1.shortcuts.isEmpty with
  | false => simp [he]
  | true =>
    rw [hn.forget.shortcuts.isEmpty_iff.1 he]
    refine iff_of_false ?_ List.not_mem_nil
    rintro ⟨m, hm, hb⟩
    simp only [he, if_true, leftOver] at hm
    split at hm
    · cases hm
    · obtain rfl := Option.some_inj.1 hm
      exact absurd hb List.not_mem_nil

end Registry

namespace Hub

variable {config : Config} {hub : Hub} {alive : Nat → Bool} {memory : Memory} {block b : BlockRef}

/-- What it takes for a block to get its shortcut as it comes: the network of a
block of data is there; the table of a device can be read, its network can have
its name, and no block of the same identity has a shortcut. -/
def Welcomes (hub : Hub) (memory : Memory) (block : BlockRef) : Prop :=
  if block.identity.holdsTable then
    (∃ layouts, Layout.parse (memory.bytes block.id) = .ok layouts) ∧
      Network.Accepts block.identity.network ∧
      ∀ b, hub.registry.Links b → b.identity ≠ block.identity
  else ∃ n, hub.registry.named? block.identity.network.text = some n

/-- Every block of the network that the hub holds has a shortcut. -/
def LinksAll (hub : Hub) (name : NetworkName) : Prop :=
  ∀ b ∈ hub.blocks, b.identity.network = name → hub.registry.Links b

theorem Sound.mem_of_links (hs : hub.Sound config) (hl : hub.registry.Links b) : b ∈ hub.blocks := by
  obtain ⟨n, hn, hb⟩ := hl
  obtain ⟨h, hg, -⟩ := (Registry.named?_eq_some_iff hs.registry).1 hn
  exact ((hs.settled h n hg).linked b hb).1

/-- The shortcuts of a network, which may be a new one, lead to the blocks of
its name that have a shortcut. -/
theorem Sound.mem_blocks_iff_links (hs : hub.Sound config) {name : String} {n : Network}
    (hp : hub.registry.provided name = .ok n) (b : BlockRef) :
    b ∈ n.shortcuts.blocks ↔ hub.registry.Links b ∧ b.identity.network.text = name := by
  obtain ⟨hname, -, hn | ⟨hnone, hnew⟩⟩ := Registry.provided_eq_ok hs.registry hp
  · constructor
    · intro hb
      obtain ⟨h, hg, -⟩ := (Registry.named?_eq_some_iff hs.registry).1 hn
      have hnet : b.identity.network.text = name := by
        rw [((hs.settled h n hg).linked b hb).2, hname]
      exact ⟨⟨n, by rw [hnet, hn], hb⟩, hnet⟩
    · rintro ⟨⟨m, hm, hb⟩, hnet⟩
      rw [hnet, hn, Option.some_inj] at hm
      exact hm ▸ hb
  · -- A new network has no shortcut, and no block has one in it.
    rw [(Network.ofName_eq_ok hnew).1]
    refine iff_of_false List.not_mem_nil ?_
    rintro ⟨⟨m, hm, -⟩, hnet⟩
    rw [hnet, hnone] at hm
    cases hm

theorem Sound.mem_named_iff_links (hs : hub.Sound config) {name : String} {n : Network}
    (hn : hub.registry.named? name = some n) (b : BlockRef) :
    b ∈ n.shortcuts.blocks ↔ hub.registry.Links b ∧ b.identity.network.text = name :=
  hs.mem_blocks_iff_links (by unfold Registry.provided; rw [hn]) b

/-- A block that is held has no shortcut under the number of one that is not. -/
theorem Sound.id_ne_of_links (hs : hub.Sound config) (hnew : hub.holds block.id = false)
    (hl : hub.registry.Links b) : b.id ≠ block.id :=
  id_ne_of_not_holds hnew (hs.mem_of_links hl)

theorem welcomes_data_iff (kind : block.identity.holdsTable = false) :
    hub.Welcomes memory block ↔
      ∃ n, hub.registry.named? block.identity.network.text = some n := by
  unfold Welcomes
  rw [kind, if_neg Bool.false_ne_true]

/-- A device whose table can be read is welcome unless the network has a
shortcut to a block of the same name, device and number. -/
theorem Sound.welcomes_table_iff (hs : hub.Sound config) (kind : block.identity.holdsTable = true)
    {layouts : List Layout} (table : Layout.parse (memory.bytes block.id) = .ok layouts)
    {n : Network} (hp : hub.registry.provided block.identity.network.text = .ok n) :
    hub.Welcomes memory block ↔ ∀ b ∈ n.shortcuts.blocks,
      b.identity.isOf block.identity.block.text block.identity.device.text
        block.identity.number = false := by
  have hmem := hs.mem_blocks_iff_links hp
  unfold Welcomes
  rw [kind, if_pos rfl]
  constructor
  · rintro ⟨-, -, hnone⟩ b hb
    obtain ⟨hl, hnet⟩ := (hmem b).1 hb
    rw [← Bool.not_eq_true, BlockIdentity.isOf_iff (Name.ext hnet)]
    exact hnone b hl
  · intro hnone
    refine ⟨⟨layouts, table⟩, Registry.accepts_of_provided hs.registry hp, fun b hl he => ?_⟩
    have hof := hnone b ((hmem b).2 ⟨hl, by rw [he]⟩)
    rw [he, (BlockIdentity.isOf_iff rfl).2 rfl] at hof
    cases hof

/-- A block of data gets a shortcut if its network is there. -/
theorem Sound.links_data_iff (hs : hub.Sound config) (hnew : hub.holds block.id = false)
    {r : Registry} (updates : hub.registry.Updates r block.identity.network.text
      ((hub.registry.named? block.identity.network.text).map fun n => (n.link block).1))
    (hnet : b.identity.network.text = block.identity.network.text) :
    r.Links b ↔ hub.registry.Links b ∨
      b = block ∧ ∃ n, hub.registry.named? block.identity.network.text = some n := by
  refine (updates.links_self hnet).trans ?_
  cases hn : hub.registry.named? block.identity.network.text with
  | none =>
    refine iff_of_false (fun ⟨m, hm, _⟩ => by cases hm) ?_
    rintro (⟨m, hm, -⟩ | ⟨-, m, hm⟩)
    · rw [hnet, hn] at hm
      cases hm
    · cases hm
  | some n =>
    obtain ⟨h, hg, -⟩ := (Registry.named?_eq_some_iff hs.registry).1 hn
    have hmem := hs.mem_named_iff_links hn
    have hlink := Network.mem_blocks_link_iff (hs.registry.each h n hg).shortcuts
      (fun b' hb' => hs.id_ne_of_links hnew ((hmem b').1 hb').1) b
    rw [hmem, and_iff_left hnet] at hlink
    simpa using hlink

/-- The block of a device that is registered gets a shortcut, unless there is
one to a block of its name, device and number. -/
theorem Sound.links_table_iff (hs : hub.Sound config)
    (halive : ∀ b ∈ hub.blocks, alive b.id = true) (hnew : hub.holds block.id = false)
    {n m : Network} (hp : hub.registry.provided block.identity.network.text = .ok n)
    {signals : List (Signal × Option Nat)}
    (after : m = (Registry.register alive n block signals).1)
    {r : Registry} (updates : hub.registry.Updates r block.identity.network.text (some m))
    (hnet : b.identity.network.text = block.identity.network.text) :
    r.Links b ↔ hub.registry.Links b ∨ b = block ∧ ∀ b' ∈ n.shortcuts.blocks,
      b'.identity.isOf block.identity.block.text block.identity.device.text
        block.identity.number = false := by
  have hmem := hs.mem_blocks_iff_links hp
  obtain ⟨-, hwf, -⟩ := Registry.provided_eq_ok hs.registry hp
  have hblocks := @Network.mem_blocks_register_iff alive n block signals hwf
    (fun b' hb' => halive b' (hs.mem_of_links ((hmem b').1 hb').1))
    (fun b' hb' => hs.id_ne_of_links hnew ((hmem b').1 hb').1) b
  rw [← after, hmem, and_iff_left hnet] at hblocks
  refine (updates.links_self hnet).trans ?_
  simpa using hblocks

/-- A block that comes gets a shortcut if it is welcome, and the other
shortcuts stay. -/
theorem Arrival.links_iff {out : Hub × Memory × Except Error Unit × Journal}
    (ha : Arrival alive hub memory block out) (hs : hub.Sound config)
    (halive : ∀ b ∈ hub.blocks, alive b.id = true) (b : BlockRef) :
    out.1.registry.Links b ↔ hub.registry.Links b ∨
      b = block ∧ hub.holds block.id = false ∧ hub.Welcomes memory block := by
  -- A block of another network is not the one that comes.
  have hother : b.identity.network.text ≠ block.identity.network.text →
      (hub.registry.Links b ↔ hub.registry.Links b ∨
        b = block ∧ hub.holds block.id = false ∧ hub.Welcomes memory block) := by
    intro hnet
    refine (or_iff_left ?_).symm
    rintro ⟨rfl, -⟩
    exact hnet rfl
  cases ha with
  | known held =>
    refine (or_iff_left ?_).symm
    rintro ⟨-, hnew, -⟩
    rw [hnew] at held
    cases held
  | data new kind updates notices =>
    by_cases hnet : b.identity.network.text = block.identity.network.text
    · rw [and_iff_right new, welcomes_data_iff kind]
      exact hs.links_data_iff new updates hnet
    · exact (updates.links_of_ne hnet).trans (hother hnet)
  | rejected new kind reason notices =>
    refine (or_iff_left ?_).symm
    rintro ⟨-, -, hwelcome⟩
    unfold Welcomes at hwelcome
    rw [kind, if_pos rfl] at hwelcome
    obtain ⟨⟨layouts, hparse⟩, hname, -⟩ := hwelcome
    rcases reason with herror | hrefused
    · rw [hparse] at herror
      cases herror
    · exact hrefused hname
  | registered new kind table before after updates growth notices =>
    by_cases hnet : b.identity.network.text = block.identity.network.text
    · rw [and_iff_right new, hs.welcomes_table_iff kind table before]
      exact hs.links_table_iff halive new before after updates hnet
    · exact (updates.links_of_ne hnet).trans (hother hnet)

/-- A block that goes takes its shortcut along and no other. If its network ends,
there was no other. -/
theorem Departure.links_iff {id : Nat} {out : Hub × Except Error Unit × Journal}
    (hd : Departure alive hub id out) (hs : hub.Sound config)
    (halive : ∀ b ∈ hub.blocks, alive b.id = true) (b : BlockRef) :
    out.1.registry.Links b ↔ hub.registry.Links b ∧ b.id ≠ id := by
  cases hd with
  | unknown absent =>
    exact (and_iff_left_of_imp fun hl => id_ne_of_not_holds absent (hs.mem_of_links hl)).symm
  | @alone block held is absent journal notices =>
    refine (and_iff_left_of_imp fun hl hid => ?_).symm
    have he : b = block := hs.eq_of_id (hs.mem_of_links hl) held (hid.trans is.symm)
    obtain ⟨n, hn, -⟩ := hl
    rw [he, absent] at hn
    cases hn
  | @forgotten block held is n before r journal updates notices =>
    by_cases hnet : b.identity.network.text = block.identity.network.text
    · obtain ⟨h, hg, -⟩ := (Registry.named?_eq_some_iff hs.registry).1 before
      have hwf := hs.registry.each h n hg
      have hmem := hs.mem_named_iff_links before b
      rw [and_iff_left hnet] at hmem
      have hkept : b ∈ (n.forget alive block).1.shortcuts.blocks ↔
          hub.registry.Links b ∧ b.id ≠ id := by
        rw [Network.mem_blocks_forget hwf.shortcuts, hmem, is]
        exact and_congr_right fun hl => and_iff_right (halive b (hs.mem_of_links hl))
      exact (updates.links_self hnet).trans ((Registry.exists_mem_afterForget hwf).trans hkept)
    · refine (updates.links_of_ne hnet).trans (and_iff_left_of_imp fun hl hid => ?_).symm
      have he : b = block := hs.eq_of_id (hs.mem_of_links hl) held (hid.trans is.symm)
      exact hnet (by rw [he])

/-- A shortcut stays while selectors are resolved. -/
theorem Sound.links_resolve (hs : hub.Sound config) (halive : ∀ b ∈ hub.blocks, alive b.id = true)
    (ids : Selector) (hl : hub.registry.Links b) :
    (hub.resolve alive memory ids).1.registry.Links b := by
  cases hs.resolves halive memory ids with
  | same eq =>
    rw [eq]
    exact hl
  | @links h n m network named fresh updates eq =>
    rw [eq]
    by_cases hnet : b.identity.network.text = n.name.text
    · have hn := (Registry.named?_eq_some_iff hs.registry).2 ⟨h, network, rfl⟩
      have hb := (hs.mem_named_iff_links hn b).2 ⟨hl, hnet⟩
      have hwf := (hs.registry.each h n network).shortcuts
      exact (updates.links_self hnet).2 ⟨_, rfl, Network.mem_blocks_link_of_mem hwf m hb⟩
    · exact (updates.links_of_ne hnet).2 hl

end Hub

namespace Site

variable {config : Config} {s : Site} {a : Action} {b : BlockRef}

theorem aliveWith_of_mem (id : Nat) (hb : b ∈ s.hub.blocks) : s.aliveWith id b.id = true := by
  unfold aliveWith
  rw [s.isAlive_of_mem hb, Bool.true_or]

/-- A block keeps its shortcut as long as the hub holds it. -/
theorem links_act (hs : s.hub.Sound config) (hl : s.hub.registry.Links b)
    (hb : b ∈ (s.act a).hub.blocks) : (s.act a).hub.registry.Links b := by
  have halive : ∀ b ∈ s.hub.blocks, s.isAlive b.id = true := fun b => s.isAlive_of_mem
  cases effect hs a with
  | @arrived id ref is href out arrival hub hears =>
    rw [hub]
    exact (arrival.links_iff hs (fun b => aliveWith_of_mem id) b).2 (Or.inl hl)
  | departed is departure hub hears =>
    rw [hub] at hb ⊢
    exact (departure.links_iff hs halive b).2 ⟨hl, ((departure.mem_blocks_iff hs).1 hb).2⟩
  | resolved ids hub hears =>
    rw [hub]
    exact hs.links_resolve halive ids hl
  | ended is hub hears =>
    rw [hub] at hb
    exact absurd hb List.not_mem_nil
  | idle hub hears =>
    rw [hub]
    exact hl

/-- A block that comes has a shortcut from then on if it is welcome. -/
theorem links_of_admits (hs : s.hub.Sound config) (ha : s.Admits a b) :
    (s.act a).hub.registry.Links b ↔ s.hub.Welcomes s.memory b := by
  obtain ⟨id, rfl, href, hnew⟩ := ha
  have harrival := Hub.arrival hs.registry (s.aliveWith id) s.memory b
  rw [s.hub_act_arrive href, harrival.links_iff hs fun b => aliveWith_of_mem id]
  constructor
  · rintro (hl | ⟨-, -, hwelcome⟩)
    · exact absurd rfl (hs.id_ne_of_links hnew hl)
    · exact hwelcome
  · exact fun hwelcome => Or.inr ⟨rfl, hnew, hwelcome⟩

/-- If every block of the network has a shortcut, so it is after an action that
brings none that is not welcome. -/
theorem linksAll_act (hs : s.hub.Sound config) {name : NetworkName} (hl : s.hub.LinksAll name)
    (hwelcome : ∀ ref, s.Admits a ref → ref.identity.network = name →
      s.hub.Welcomes s.memory ref) : (s.act a).hub.LinksAll name := by
  intro b hb hnet
  rcases (effect hs a).mem_blocks hs hb with hmem | hadmits
  · exact links_act hs (hl b hmem hnet) hb
  · exact (links_of_admits hs hadmits).2 (hwelcome b hadmits hnet)

/-- By induction on the run, from its end. -/
theorem linksAll_run (hs : s.hub.Sound config) {name : NetworkName} (hl : s.hub.LinksAll name)
    (actions : List Action) (hwelcome : Throughout (fun s a => ∀ ref, s.Admits a ref →
      ref.identity.network = name → s.hub.Welcomes s.memory ref) s actions) :
    (s.run actions).hub.LinksAll name := by
  induction actions using List.reverseRecOn with
  | nil => exact hl
  | append_singleton actions a ih =>
    obtain ⟨hbefore, hlast⟩ := (throughout_concat s actions a).1 hwelcome
    rw [run_concat]
    exact linksAll_act (sound_run hs actions) (ih hbefore) hlast

end Site
end SignalRegistry
