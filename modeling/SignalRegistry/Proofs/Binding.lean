/-
# Which block a signal is bound to

A signal is bound to a block of its name, device and number in its network: the
first to which the network has a shortcut, or else the first in the list of
blocks. As no two blocks of a hub need differ in their identity, these may be
two different blocks. Shortcuts to blocks of one identity stand in the order in
which the blocks have come (`Network.InOrder`), so the two are the same exactly
if the first block has a shortcut or no block of the identity has one.

Key definitions: `Network.InOrder`, `Hub.linkedNamed?`, `Site.BindsFirst`.
Key theorems: `Hub.Arrival.inOrder`, `Site.inOrder_run`, `Hub.Sound.linked_eq`,
`Site.bindsFirst_iff`, `Site.bound_iff`.
-/
import SignalRegistry.Proofs.Disconnection

namespace SignalRegistry

/-- A part of a list without repetitions is what the list has of it. -/
theorem filter_mem_of_sublist {β : Type} [DecidableEq β] {part l : List β} (hn : l.Nodup)
    (h : part.Sublist l) : l.filter (· ∈ part) = part := by
  have hself : part.filter (· ∈ part) = part := List.filter_eq_self.2 (by simp)
  have hpart : part.Sublist (l.filter (· ∈ part)) := by
    have := h.filter (· ∈ part)
    rwa [hself] at this
  have hsubset : l.filter (· ∈ part) ⊆ part := fun b hb => by
    simpa using (List.mem_filter.1 hb).2
  exact (hpart.eq_of_length_le ((hn.filter _).subperm hsubset).length_le).symm

/-- Of two different values neither passes if as much is left of both. -/
theorem filter_some_eq_iff {β : Type} {p : β → Bool} {l m : β} (hne : l ≠ m) :
    (some l).filter p = (some m).filter p ↔ p l = false ∧ p m = false := by
  rw [Option.filter_some, Option.filter_some]
  cases hl : p l <;> cases hm : p m <;> simp [hne]

namespace Network

/-- Shortcuts to blocks of one identity stand in the order of the blocks. -/
def InOrder (blocks : List BlockRef) (n : Network) : Prop :=
  ∀ i, (n.shortcuts.blocks.filter (·.identity = i)).Sublist (blocks.filter (·.identity = i))

namespace InOrder

variable {blocks : List BlockRef} {n m : Network} {b : BlockRef} {alive : Nat → Bool}

/-- Some of the shortcuts that were in order are in order. -/
theorem mono (h : n.InOrder blocks) (hm : m.shortcuts.blocks.Sublist n.shortcuts.blocks) :
    m.InOrder blocks :=
  fun i => (hm.filter _).trans (h i)

theorem of_nil (hm : m.shortcuts.blocks = []) : m.InOrder blocks := fun i => by
  rw [hm]
  exact List.nil_sublist _

/-- A block that comes is the last of the list, and so may its shortcut be. -/
theorem append (h : n.InOrder blocks) (b : BlockRef)
    (hm : m.shortcuts.blocks.Sublist (n.shortcuts.blocks ++ [b])) : m.InOrder (blocks ++ [b]) := by
  intro i
  refine (hm.filter _).trans ?_
  rw [List.filter_append, List.filter_append]
  exact (h i).append_right _

/-- What is left of the list when a block goes that no shortcut leads to. -/
theorem without (h : n.InOrder blocks) {id : Nat}
    (hm : ∀ b ∈ n.shortcuts.blocks, b.id ≠ id) : n.InOrder (blocks.filter (·.id != id)) := by
  intro i
  have hsame : n.shortcuts.blocks.filter (·.id != id) = n.shortcuts.blocks :=
    List.filter_eq_self.2 fun b hb => by simpa using hm b hb
  have hfilter := (h i).filter (·.id != id)
  rw [List.filter_filter, List.filter_filter] at hfilter
  rw [← hsame, List.filter_filter, List.filter_filter]
  simpa only [Bool.and_comm] using hfilter

/-- The first shortcut of an identity is one to a block of the list, if no other
of the network has the identity. -/
theorem link (h : n.InOrder blocks) (hn : n.shortcuts.WellFormed) (hb : b ∈ blocks)
    (hnone : ∀ b' ∈ n.shortcuts.blocks, b'.identity ≠ b.identity) : (n.link b).1.InOrder blocks := by
  rcases blocks_link hn b with ⟨hsame, -⟩ | ⟨hnew, -⟩
  · exact h.mono (hsame ▸ List.Sublist.refl _)
  · intro i
    rw [hnew, List.filter_append]
    by_cases hi : b.identity = i
    · subst hi
      have hnil : n.shortcuts.blocks.filter (·.identity = b.identity) = [] :=
        List.filter_eq_nil_iff.2 fun b' hb' => by simpa using hnone b' hb'
      have hmem : b ∈ blocks.filter (·.identity = b.identity) := List.mem_filter.2 ⟨hb, by simp⟩
      rw [hnil, List.nil_append, List.filter_cons_of_pos (by simp), List.filter_nil]
      exact List.singleton_sublist.2 hmem
    · rw [List.filter_cons_of_neg (by simpa using hi), List.filter_nil, List.append_nil]
      exact h i

end InOrder

end Network

namespace Registry

/-- A network that forgets a block, and may end by it, gets no shortcut. -/
theorem blocks_afterForget_sublist {alive : Nat → Bool} {r : Registry} {block : BlockRef}
    {n m : Network} (hn : n.WellFormed) (hm : r.afterForget alive block n = some m) :
    m.shortcuts.blocks.Sublist n.shortcuts.blocks := by
  unfold afterForget at hm
  simp only at hm
  split at hm
  · unfold leftOver at hm
    split at hm
    · cases hm
    · obtain rfl := Option.some.inj hm
      exact List.nil_sublist _
  · obtain rfl := Option.some.inj hm
    exact Network.blocks_forget_sublist hn.shortcuts

end Registry

namespace Hub

variable {config : Config} {hub : Hub} {alive : Nat → Bool} {memory : Memory} {block : BlockRef}

/-! ### Shortcuts stay in order -/

/-- The shortcuts of all networks are in order. -/
def InOrder (hub : Hub) : Prop := hub.registry.Each (Network.InOrder hub.blocks)

theorem Arrival.inOrder {out : Hub × Memory × Except Error Unit × Journal}
    (ha : Arrival alive hub memory block out) (hs : hub.Sound config) (ho : hub.InOrder) :
    out.1.InOrder := by
  have hold : hub.registry.Each (Network.InOrder (hub.blocks ++ [block])) := fun h n hg =>
    (ho h n hg).append block (List.sublist_append_left _ _)
  cases ha with
  | known held => exact ho
  | data new kind updates notices =>
    refine updates.each hs.registry hold fun m hm => ?_
    obtain ⟨n, hn, rfl⟩ := Option.map_eq_some_iff.1 hm
    obtain ⟨h, hg, -⟩ := (Registry.named?_eq_some_iff hs.registry).1 hn
    exact (ho h n hg).append block
      (Network.blocks_link_sublist (hs.registry.each h n hg).shortcuts block)
  | rejected new kind reason notices => exact hold
  | @registered new kind layouts n m r grown result journal table before after updates growth notices =>
    refine updates.each hs.registry hold fun m' hm' => ?_
    obtain rfl := Option.some.inj hm'
    obtain ⟨-, hwf, hn | ⟨-, hnew⟩⟩ := Registry.provided_eq_ok hs.registry before
    · obtain ⟨h, hg, -⟩ := (Registry.named?_eq_some_iff hs.registry).1 hn
      exact (ho h n hg).append block (after ▸ Network.blocks_register_sublist hwf)
    · -- A new network has no shortcuts.
      have hnil : n.shortcuts.blocks = [] := by
        rw [(Network.ofName_eq_ok hnew).1]
        rfl
      have hempty : n.InOrder hub.blocks := .of_nil hnil
      exact hempty.append block (after ▸ Network.blocks_register_sublist hwf)

theorem InOrder.depart (ho : hub.InOrder) (hs : hub.Sound config) (id : Nat) :
    (hub.depart alive id).1.InOrder := by
  have hs' : (hub.depart alive id).1.Sound config := hs.depart id
  have hold : (hub.depart alive id).1.registry.Each (Network.InOrder hub.blocks) := by
    generalize he : hub.depart alive id = out
    have hd : Departure alive hub id out := he ▸ departure hs.registry alive id
    cases hd with
    | unknown absent => exact ho
    | alone held is absent notices => exact ho
    | @forgotten gone held is n before r journal updates notices =>
      obtain ⟨h, hg, -⟩ := (Registry.named?_eq_some_iff hs.registry).1 before
      refine updates.each hs.registry ho fun m hm => ?_
      exact (ho h n hg).mono (Registry.blocks_afterForget_sublist (hs.registry.each h n hg) hm)
  intro h n hg
  have hgone : ∀ b ∈ n.shortcuts.blocks, b.id ≠ id := fun b hb =>
    (hs.mem_blocks_depart ((hs'.settled h n hg).linked b hb).1).2
  rw [blocks_depart, eraseP_eq_filter hs.blocks]
  exact (hold h n hg).without hgone

/-- A shortcut that is added when a selector is resolved is the first of its
identity. -/
theorem InOrder.resolve (ho : hub.InOrder) (hs : hub.Sound config)
    (halive : ∀ b ∈ hub.blocks, alive b.id = true) (memory : Memory) (ids : Selector) :
    (hub.resolve alive memory ids).1.InOrder := by
  cases hs.resolves halive memory ids with
  | same eq =>
    rw [eq]
    exact ho
  | @links h n b network named fresh updates eq =>
    rw [eq]
    refine updates.each hs.registry ho fun m hm => ?_
    obtain rfl := Option.some.inj hm
    have hwf := (hs.registry.each h n network).shortcuts
    exact (ho h n network).link hwf fresh.listed fresh.unlinked

end Hub

namespace Site

variable {config : Config} {s : Site}

theorem inOrder_act (hs : s.hub.Sound config) (ho : s.hub.InOrder) (a : Action) :
    (s.act a).hub.InOrder := by
  cases effect hs a with
  | arrived is href arrival hub hears =>
    rw [hub]
    exact arrival.inOrder hs ho
  | @departed id is out departure hub hears =>
    rw [is, hub_act_depart]
    exact ho.depart hs id
  | resolved ids hub hears =>
    rw [hub]
    exact ho.resolve hs (fun b => s.isAlive_of_mem) s.memory ids
  | ended is hub hears =>
    rw [hub]
    intro h n hg
    simp [Hub.shutDown, Registry.clear] at hg
  | idle hub hears =>
    rw [hub]
    exact ho

/-- By induction on the run, over hubs that are sound. -/
theorem inOrder_run (hs : s.hub.Sound config) (ho : s.hub.InOrder) (actions : List Action) :
    (s.run actions).hub.InOrder := by
  induction actions generalizing s with
  | nil => exact ho
  | cons a actions ih => exact ih (sound_act hs a) (inOrder_act hs ho a)

theorem inOrder_ofConfig (config : Config) : (ofConfig config).hub.InOrder := by
  intro h n hg
  simp [ofConfig, Hub.ofConfig] at hg

end Site

/-! ### The first block with a shortcut -/

namespace Registry

instance decidableLinks (r : Registry) (b : BlockRef) : Decidable (r.Links b) :=
  inferInstanceAs (Decidable (∃ n ∈ r.named? b.identity.network.text, b ∈ n.shortcuts.blocks))

end Registry

namespace Hub

variable {config : Config} {hub : Hub} {block device network : String} {number : UInt32}

/-- The first block of this name, device, number and network that has a
shortcut. -/
def linkedNamed? (hub : Hub) (block device : String) (number : UInt32) (network : String) :
    Option BlockRef :=
  hub.blocks.find? fun b =>
    b.identity.network.text == network && b.identity.isOf block device number &&
      decide (hub.registry.Links b)

theorem links_of_linkedNamed? {l : BlockRef}
    (hl : hub.linkedNamed? block device number network = some l) : hub.registry.Links l := by
  have := List.find?_some hl
  rw [Bool.and_eq_true, decide_eq_true_eq] at this
  exact this.2

/-- If the first block has a shortcut, it is the first that has one. -/
theorem linkedNamed?_of_links {m : BlockRef}
    (hm : hub.blockNamed? block device number network = some m) (hl : hub.registry.Links m) :
    hub.linkedNamed? block device number network = some m := by
  obtain ⟨hof, before, after, hblocks, hnot⟩ := List.find?_eq_some_iff_append.1 hm
  refine List.find?_eq_some_iff_append.2 ⟨?_, before, after, hblocks, fun b hb => ?_⟩
  · rw [hof, decide_eq_true hl]
    rfl
  · have hother := hnot b hb
    rw [Bool.not_eq_true'] at hother
    rw [hother]
    rfl

/-- The shortcuts of a network to blocks of a name, device and number are those
blocks of the list that have one, in the order of the list. -/
theorem Sound.filter_blocks (hs : hub.Sound config) (ho : hub.InOrder) {h : Handle} {n : Network}
    (hg : hub.registry.networks.get? h = some n) (block device : String) (number : UInt32) :
    (n.shortcuts.blocks.filter fun b => b.identity.isOf block device number) =
      hub.blocks.filter fun b =>
        b.identity.network.text == n.name.text && b.identity.isOf block device number &&
          decide (hub.registry.Links b) := by
  have hn := (Registry.named?_eq_some_iff hs.registry).2 ⟨h, hg, rfl⟩
  have hmem := hs.mem_named_iff_links hn
  generalize hpart : (n.shortcuts.blocks.filter fun b =>
    b.identity.isOf block device number) = part
  have hof : ∀ b, b ∈ part ↔
      b ∈ n.shortcuts.blocks ∧ b.identity.isOf block device number = true := fun b => by
    rw [← hpart, List.mem_filter]
  have hsub : part.Sublist hub.blocks := by
    rcases part.eq_nil_or_concat with rfl | ⟨rest, c, hc⟩
    · exact List.nil_sublist _
    · -- All of them have the identity of any one.
      obtain ⟨hlinked, hofc⟩ := (hof c).1 (by simp [hc])
      obtain ⟨rfl, rfl, rfl⟩ : c.identity.block.text = block ∧ c.identity.device.text = device ∧
          c.identity.number = number := by
        simpa [BlockIdentity.isOf, and_assoc] using hofc
      have hsame : n.shortcuts.blocks.filter (·.identity = c.identity) = part := by
        rw [← hpart]
        refine List.filter_congr fun b hb => ?_
        have hnet : b.identity.network = c.identity.network :=
          Name.ext (((hmem b).1 hb).2.trans ((hmem c).1 hlinked).2.symm)
        rw [Bool.eq_iff_iff, BlockIdentity.isOf_iff hnet, decide_eq_true_eq]
      rw [← hsame]
      exact (ho h n hg c.identity).trans List.filter_sublist
  have hnodup : hub.blocks.Nodup := .of_map _ hs.blocks
  rw [← filter_mem_of_sublist hnodup hsub]
  refine List.filter_congr fun b _ => ?_
  rw [Bool.eq_iff_iff, decide_eq_true_eq, hof, hmem]
  simp only [Bool.and_eq_true, beq_iff_eq, decide_eq_true_eq]
  tauto

/-- The first shortcut to a block of a name, device and number leads to the first
of these blocks that has one. -/
theorem Sound.linked_eq (hs : hub.Sound config) (ho : hub.InOrder) {h : Handle} {n : Network}
    (hg : hub.registry.networks.get? h = some n) (block device : String) (number : UInt32) :
    (n.shortcuts.blocks.find? fun b => b.identity.isOf block device number) =
      hub.linkedNamed? block device number n.name.text := by
  rw [linkedNamed?, ← List.head?_filter, hs.filter_blocks ho hg, List.head?_filter]

end Hub

/-! ### The block of a binding -/

namespace Binding

variable {b : Binding} {hub : Hub} {l m : BlockRef}

/-- The first block in the list that may hold the signal. -/
def first? (b : Binding) (hub : Hub) : Option BlockRef :=
  hub.blockNamed? b.signal.block.text b.signal.device.text b.signal.number b.network.text

/-- The first one that has a shortcut. -/
def linked? (b : Binding) (hub : Hub) : Option BlockRef :=
  hub.linkedNamed? b.signal.block.text b.signal.device.text b.signal.number b.network.text

/-- The block is large enough for the signal. -/
def fits (b : Binding) (memory : Memory) (m : BlockRef) : Bool :=
  decide (b.signal.stop ≤ memory.size m.id)

theorem mem_of_first? (hm : b.first? hub = some m) :
    m ∈ hub.blocks ∧ m.identity.network = b.network :=
  have ⟨hmem, hnet, _⟩ := Hub.blockNamed?_eq_some hm
  ⟨hmem, Name.ext hnet⟩

theorem mem_of_linked? (hl : b.linked? hub = some l) : l ∈ hub.blocks :=
  List.mem_of_find?_eq_some hl

theorem exists_first? (hl : b.linked? hub = some l) : ∃ m, b.first? hub = some m := by
  have hfound := List.find?_some hl
  rw [Bool.and_eq_true] at hfound
  exact Option.isSome_iff_exists.1 (List.find?_isSome.2 ⟨l, mem_of_linked? hl, hfound.1⟩)

/-- Both blocks have the identity that the signal names. -/
theorem identity_of_linked? (hl : b.linked? hub = some l) (hm : b.first? hub = some m) :
    l.identity = m.identity := by
  obtain ⟨-, hnet, hof⟩ := Hub.blockNamed?_eq_some hm
  have hfound := List.find?_some hl
  simp only [BlockIdentity.isOf, Bool.and_eq_true, beq_iff_eq, decide_eq_true_eq] at hof hfound
  obtain ⟨⟨hnet', ⟨hblock', hdevice'⟩, hnumber'⟩, -⟩ := hfound
  obtain ⟨⟨hblock, hdevice⟩, hnumber⟩ := hof
  refine (BlockIdentity.isOf_iff (Name.ext (hnet'.trans hnet.symm))).1 ?_
  simp [BlockIdentity.isOf, hblock', hdevice', hnumber', hblock, hdevice, hnumber]

/-- The first block has a shortcut exactly if it is the first that has one. -/
theorem linked?_eq_iff (hl : b.linked? hub = some l) (hm : b.first? hub = some m) :
    l = m ↔ hub.registry.Links m := by
  constructor
  · intro he
    exact he ▸ Hub.links_of_linkedNamed? hl
  · intro hlinks
    have hfirst : b.linked? hub = some m := Hub.linkedNamed?_of_links hm hlinks
    exact Option.some.inj (hl.symm.trans hfirst)

end Binding

namespace Site

variable {config : Config} {s : Site} {b : Binding}

/-- The binding is to the first block in the list, if that is large enough. -/
def BindsFirst (s : Site) (b : Binding) : Prop :=
  b.block = (b.first? s.hub).filter (b.fits s.memory)

/-- A path is bound to the first block with a shortcut, or else to the first
block in the list, if it is large enough. -/
theorem block_of_resolvePath (hs : s.hub.Sound config) (ho : s.hub.InOrder) {path : String}
    {own : Option String} (hb : (s.resolvePath path own).2.1 = some b) :
    b.block = ((b.linked? s.hub).or (b.first? s.hub)).filter (b.fits s.memory) := by
  have halive : ∀ b ∈ s.hub.blocks, s.isAlive b.id = true := fun b => s.isAlive_of_mem
  obtain ⟨ids, hids⟩ := Hub.resolvePath_answer s.isAlive s.hub s.memory path own
  rw [resolvePath_answer, hids] at hb
  obtain ⟨h, n, hg, hname, -, hblock⟩ := hs.resolve_eq_some halive hb
  rw [hs.linked_eq ho hg, ← hname] at hblock
  exact hblock

/-- A path is bound to a block that is held, has the identity that the signal
names and is large enough. -/
theorem bound_of_resolvePath (hs : s.hub.Sound config) {path : String} {own : Option String}
    (hb : (s.resolvePath path own).2.1 = some b) {m : BlockRef} (hm : b.block = some m) :
    m ∈ s.hub.blocks ∧ m.identity = b.signal.blockIn b.network ∧ b.fits s.memory m = true := by
  have halive : ∀ b ∈ s.hub.blocks, s.isAlive b.id = true := fun b => s.isAlive_of_mem
  obtain ⟨ids, hids⟩ := Hub.resolvePath_answer s.isAlive s.hub s.memory path own
  rw [resolvePath_answer, hids] at hb
  obtain ⟨hmem, hidentity, hstop⟩ := hs.block_of_bound halive hb hm
  exact ⟨hmem, hidentity, decide_eq_true hstop⟩

/-- The binding is to the first block in the list unless a later one has a
shortcut, and the first has not, and one of them is large enough. -/
theorem bindsFirst_iff (hblock : b.block =
    ((b.linked? s.hub).or (b.first? s.hub)).filter (b.fits s.memory)) :
    s.BindsFirst b ↔ ∀ l m, b.linked? s.hub = some l → b.first? s.hub = some m →
      s.hub.registry.Links m ∨ b.fits s.memory l = false ∧ b.fits s.memory m = false := by
  unfold BindsFirst
  rw [hblock]
  cases hl : b.linked? s.hub with
  | none =>
    rw [Option.none_or]
    exact iff_of_true rfl fun l m hl => by cases hl
  | some l =>
    obtain ⟨m, hm⟩ := b.exists_first? hl
    have hsame := b.linked?_eq_iff hl hm
    rw [hm, Option.some_or]
    by_cases he : l = m
    · refine iff_of_true (by rw [he]) fun l' m' _ hm' => Or.inl ?_
      exact Option.some.inj hm' ▸ hsame.1 he
    · rw [filter_some_eq_iff he]
      constructor
      · intro hnone l' m' hl' hm'
        rw [← Option.some.inj hl', ← Option.some.inj hm']
        exact Or.inr hnone
      · intro hcond
        exact (hcond l m rfl rfl).resolve_left fun hlinks => he (hsame.2 hlinks)

/-- In particular if all blocks of the network have shortcuts, or no two blocks
have one identity. -/
theorem bindsFirst_of_linked_or_distinct (hblock : b.block =
    ((b.linked? s.hub).or (b.first? s.hub)).filter (b.fits s.memory))
    (h : s.hub.LinksAll b.network ∨ (s.hub.blocks.map (·.identity)).Nodup) : s.BindsFirst b := by
  refine (bindsFirst_iff hblock).2 fun l m hl hm => Or.inl ?_
  obtain ⟨hmem, hnet⟩ := b.mem_of_first? hm
  rcases h with hall | hdistinct
  · exact hall m hmem hnet
  · have hid := b.identity_of_linked? hl hm
    have he : l = m := List.inj_on_of_nodup_map hdistinct (b.mem_of_linked? hl) hmem hid
    exact (b.linked?_eq_iff hl hm).1 he

/-- **A path is bound to the first block of its signal, unless a later one has the
shortcut.** In every reachable state, a path is bound to the first block in the list
that may hold its signal, if that is large enough, unless a later block has a
shortcut that the first has not and one of the two is large enough: then the
later one takes its place. This does not happen if all blocks of the network
have shortcuts, or if no two blocks have one identity. -/
theorem bound_iff (config : Config) (actions : List Action) (path : String) (own : Option String)
    (hb : (((ofConfig config).run actions).resolvePath path own).2.1 = some b) :
    let s := (ofConfig config).run actions
    b.isLive s.isAlive = b.block.isSome ∧
    b.block = ((b.linked? s.hub).or (b.first? s.hub)).filter (b.fits s.memory) ∧
    (s.BindsFirst b ↔ ∀ l m, b.linked? s.hub = some l → b.first? s.hub = some m →
      s.hub.registry.Links m ∨ b.fits s.memory l = false ∧ b.fits s.memory m = false) ∧
    (s.hub.LinksAll b.network ∨ (s.hub.blocks.map (·.identity)).Nodup → s.BindsFirst b) := by
  intro s
  have hs : s.hub.Sound config := sound_run (Hub.sound_ofConfig config) actions
  have ho : s.hub.InOrder :=
    inOrder_run (Hub.sound_ofConfig config) (inOrder_ofConfig config) actions
  have hblock := block_of_resolvePath hs ho hb
  refine ⟨?_, hblock, bindsFirst_iff hblock, bindsFirst_of_linked_or_distinct hblock⟩
  unfold Binding.isLive
  cases hm : b.block with
  | none => rfl
  | some m => exact s.isAlive_of_mem (bound_of_resolvePath hs hb hm).1

/-- The block that a path is bound to, and the first in the list that may hold its
signal, if that is large enough. -/
def blocksAt (s : Site) (path : String) : Option (Option BlockRef × Option BlockRef) :=
  (s.hub.resolve s.isAlive s.memory (s.hub.selector .signal path)).2.1.map fun b =>
    (b.block, (b.first? s.hub).filter (b.fits s.memory))

theorem exists_of_blocksAt {path : String} {bound first : Option BlockRef}
    (h : s.blocksAt path = some (bound, first)) : ∃ b, (s.resolvePath path none).2.1 = some b ∧
      b.block = bound ∧ (s.BindsFirst b ↔ bound = first) := by
  obtain ⟨b, hb, hpair⟩ := Option.map_eq_some_iff.1 h
  obtain ⟨rfl, rfl⟩ := Prod.mk.inj hpair
  rw [← Hub.resolvePath_binding, ← resolvePath_answer] at hb
  exact ⟨b, hb, rfl, Iff.rfl⟩

theorem blocksAt_tableFirst : ((ofConfig .default).run tableFirst).blocksAt "t.exp.gina1.n" =
    some (some ⟨1, (dataBlock "gina" 1).identity⟩, some ⟨1, (dataBlock "gina" 1).identity⟩) := by
  decide +kernel

/-- A block of data that comes after the table of its device is the first of its
identity. -/
theorem bound_tableFirst : ∃ b : Binding,
    (((ofConfig .default).run tableFirst).resolvePath "t.exp.gina1.n" none).2.1 = some b ∧
      b.block = some ⟨1, (dataBlock "gina" 1).identity⟩ ∧
      ((ofConfig .default).run tableFirst).BindsFirst b := by
  obtain ⟨b, hb, hblock, -⟩ := exists_of_blocksAt blocksAt_tableFirst
  obtain ⟨-, -, -, hfirst⟩ := bound_iff .default tableFirst "t.exp.gina1.n" none hb
  refine ⟨b, hb, hblock, hfirst (Or.inr ?_)⟩
  rw [run_tableFirst.1]
  have hne : (infoBlock "gina" 1).identity ≠ (dataBlock "gina" 1).identity := by
    intro he
    have htable : (infoBlock "gina" 1).identity.holdsTable = true := by decide
    have hdata : (dataBlock "gina" 1).identity.holdsTable = false := by decide
    rw [he, hdata] at htable
    cases htable
  simpa using hne

/-! ### A block that comes before its network -/

/-- A block of data comes, the table of its device, and a smaller block of the
same name. -/
def smallLast : List Action :=
  [.publish (dataBlock "gina" 1), .publish (infoBlock "gina" 1),
    .publish (.zeros (.ofNames "exp" "gina" 1 "n") 2), .arrive 0, .arrive 1, .arrive 2]

theorem blocksAt_smallLast : ((ofConfig .default).run smallLast).blocksAt "t.exp.gina1.n" =
    some (none, some ⟨0, (dataBlock "gina" 1).identity⟩) := by decide +kernel

/-- Not every binding is to the first block of the list: the small block alone has
a shortcut, and the signal is bound to none. -/
theorem unbound_smallLast : ¬ ∀ (config : Config) (actions : List Action) (path : String)
    (own : Option String) (b : Binding),
    (((ofConfig config).run actions).resolvePath path own).2.1 = some b →
      ((ofConfig config).run actions).BindsFirst b := by
  intro h
  obtain ⟨b, hb, -, hfirst⟩ := exists_of_blocksAt blocksAt_smallLast
  cases hfirst.1 (h .default smallLast "t.exp.gina1.n" none b hb)

end Site
end SignalRegistry
