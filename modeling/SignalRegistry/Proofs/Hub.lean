/-
# What a hub keeps in step

The registry and the list of blocks of a hub are changed by separate
functions. What keeps them in step is that every shortcut of a network leads to
a block in the list that is in this network, that a network is active as long
as it has a shortcut that came with a device, and has no signals otherwise, and
that the names of its signals are short (`Network.Settled`). Blocks of a hub are alive, so no search
releases their shortcuts.

Key definitions: `Network.Settled`, `Hub.Sound`.
Key theorems: `Hub.Sound.arrive`, `Hub.Sound.depart`, `Hub.Sound.shutDown`,
`Hub.Sound.unfed`.
-/
import SignalRegistry.Hub
import SignalRegistry.Proofs.Registry

namespace SignalRegistry

/-- Two identities in one network are the same if the rest of them is. -/
theorem BlockIdentity.isOf_iff {i j : BlockIdentity} (hn : i.network = j.network) :
    i.isOf j.block.text j.device.text j.number = true ↔ i = j := by
  obtain ⟨block, device, number, network⟩ := i
  obtain ⟨block', device', number', network'⟩ := j
  simp only [isOf, Bool.and_eq_true, beq_iff_eq, BlockIdentity.mk.injEq, Name.ext_iff] at hn ⊢
  tauto

/-- The identity of the block in which a signal of a network lies. -/
def Signal.blockIn (s : Signal) (network : NetworkName) : BlockIdentity :=
  ⟨s.block, s.device, s.number, network⟩

theorem Signal.liesIn_iff {s : Signal} {i : BlockIdentity} :
    s.liesIn i.block.text i.device.text i.number = true ↔ i = s.blockIn i.network := by
  obtain ⟨block, device, number, network⟩ := i
  simp only [liesIn, blockIn, Bool.and_eq_true, beq_iff_eq, BlockIdentity.mk.injEq, Name.ext_iff]
  tauto

namespace Network

/-- The shortcuts of a network lead to blocks of the list that are in it, the
network is active with a shortcut, or, if empty networks are kept, drained and
without a signal, and its signals have short names. -/
structure Settled (config : Config) (blocks : List BlockRef) (n : Network) : Prop where
  linked : ∀ b ∈ n.shortcuts.blocks, b ∈ blocks ∧ b.identity.network = n.name
  staged : n.phase = .active ∧ n.shortcuts.blocks ≠ [] ∨
    config.removeEmptyNetworks = false ∧ n.phase = .draining ∧ n.signals.items = []
  short : ∀ s ∈ n.signals.items, s.IsShort

namespace Settled

variable {config : Config} {blocks : List BlockRef} {n : Network} {b : BlockRef}

theorem mono {blocks' : List BlockRef} (h : n.Settled config blocks)
    (hb : ∀ b ∈ n.shortcuts.blocks, b ∈ blocks → b ∈ blocks') : n.Settled config blocks' where
  linked b hm := ⟨hb b hm (h.linked b hm).1, (h.linked b hm).2⟩
  staged := h.staged
  short := h.short

/-- An active network has a shortcut. -/
theorem blocks_ne_nil (h : n.Settled config blocks) (hactive : n.phase = .active) :
    n.shortcuts.blocks ≠ [] := by
  rcases h.staged with ⟨-, hne⟩ | ⟨-, hdraining, -⟩
  · exact hne
  · rw [hactive] at hdraining
    cases hdraining

theorem link (h : n.Settled config blocks) (hn : n.WellFormed) (hb : b ∈ blocks)
    (hname : b.identity.network = n.name) : (n.link b).1.Settled config blocks where
  linked b' hb' := by
    rw [link_name]
    rcases mem_blocks_link hn.shortcuts hb' with hm | rfl
    · exact h.linked b' hm
    · exact ⟨hb, hname⟩
  staged := by
    rw [link_phase, link_signals]
    exact h.staged.imp_left fun hs => ⟨hs.1, blocks_link_ne_nil hn.shortcuts b⟩
  short := by
    rw [link_signals]
    exact h.short

/-- A network is settled after a registration, new or not. -/
theorem register {alive : Nat → Bool} {info : BlockRef} {signals : List (Signal × Option Nat)}
    (hn : n.WellFormed) (hl : ∀ b ∈ n.shortcuts.blocks, b ∈ blocks ∧ b.identity.network = n.name)
    (hi : info ∈ blocks) (hname : info.identity.network = n.name)
    (hold : ∀ s ∈ n.signals.items, s.IsShort) (hnew : ∀ s ∈ placed signals, s.IsShort) :
    (Registry.register alive n info signals).1.Settled config blocks where
  linked b hb := by
    rw [register_name]
    rcases mem_blocks_register hn hb with hm | rfl
    · exact hl b hm
    · exact ⟨hi, hname⟩
  staged := Or.inl ⟨register_phase, blocks_register_ne_nil hn⟩
  short s hs := by
    rw [register_signals, mem_items_putSignals_iff hn] at hs
    rcases hs with hlast | ⟨hs, -⟩
    · exact hnew s hlast.mem
    · exact hold s hs

/-- A network that keeps a shortcut when a block is forgotten stays settled. -/
theorem forget {alive : Nat → Bool} {blocks' : List BlockRef} (h : n.Settled config blocks)
    (hn : n.WellFormed) (hb : ∀ b' ∈ blocks, b'.id ≠ b.id → b' ∈ blocks')
    (he : (n.forget alive b).1.shortcuts.isEmpty = false) :
    (n.forget alive b).1.Settled config blocks' where
  linked b' hb' := by
    obtain ⟨hm, -, hid⟩ := (mem_blocks_forget hn.shortcuts b').1 hb'
    exact ⟨hb b' (h.linked b' hm).1 hid, (h.linked b' hm).2⟩
  staged := by
    rw [forget_phase]
    refine h.staged.imp (fun hs => ⟨hs.1, fun hnil => ?_⟩) fun hs => ⟨hs.1, hs.2.1, ?_⟩
    · rw [hn.forget.shortcuts.isEmpty_iff.2 hnil] at he
      cases he
    · rw [items_forget hn.signals, hs.2.2, List.filter_nil]
  short s hs := by
    rw [items_forget hn.signals] at hs
    exact h.short s (List.mem_of_mem_filter hs)

/-- What is left of a network that has lost its last block. -/
theorem leftOver {r : Registry} {m : Network} (hm : r.leftOver n = some m) :
    m.Settled r.config blocks := by
  unfold Registry.leftOver at hm
  split at hm
  · cases hm
  · rename_i hc
    obtain rfl := Option.some_inj.1 hm
    refine ⟨fun b hb => absurd hb List.not_mem_nil,
      Or.inr ⟨Bool.eq_false_of_not_eq_true hc, rfl, Index.items_empty⟩, fun s hs => ?_⟩
    have hnil : n.clear.signals.items = [] := Index.items_empty
    exact absurd (hnil ▸ hs) List.not_mem_nil

end Settled
end Network

namespace Hub

variable {config : Config} {hub : Hub} {alive : Nat → Bool}

/-- The registry is well-formed, no block is held twice, and every network
is settled. -/
structure Sound (config : Config) (hub : Hub) : Prop where
  configured : hub.config = config
  registry : hub.registry.WellFormed
  blocks : (hub.blocks.map BlockRef.id).Nodup
  settled : hub.registry.Each (Network.Settled config hub.blocks)

theorem sound_ofConfig (config : Config) : (ofConfig config).Sound config where
  configured := rfl
  registry := Registry.wellFormed_empty config
  blocks := List.nodup_nil
  settled h n hn := by simp [ofConfig] at hn

/-- A hub whose registry is changed in one network is sound if that network is
settled. -/
theorem Sound.updates (hs : hub.Sound config) {r : Registry} {name : String} {n? : Option Network}
    (hu : hub.registry.Updates r name n?) (hn : ∀ n, n? = some n → n.Settled config hub.blocks) :
    ({ hub with registry := r } : Hub).Sound config where
  configured := hu.config.trans hs.configured
  registry := hu.wellFormed
  blocks := hs.blocks
  settled := hu.each hs.registry hs.settled hn

theorem holds_iff (hub : Hub) (id : Nat) : hub.holds id = true ↔ ∃ b ∈ hub.blocks, b.id = id := by
  simp [holds]

theorem id_ne_of_not_holds {id : Nat} (hh : hub.holds id = false) {b : BlockRef}
    (hb : b ∈ hub.blocks) : b.id ≠ id := by
  intro hid
  rw [(hub.holds_iff id).2 ⟨b, hb, hid⟩] at hh
  cases hh

/-- A block is held once under its number. -/
theorem Sound.eq_of_id (hs : hub.Sound config) {b b' : BlockRef} (hb : b ∈ hub.blocks)
    (hb' : b' ∈ hub.blocks) (hid : b.id = b'.id) : b = b' :=
  List.inj_on_of_nodup_map hs.blocks hb hb' hid

theorem Sound.forall_id_iff (hs : hub.Sound config) {block : BlockRef} (held : block ∈ hub.blocks)
    {id : Nat} (is : block.id = id) {P : BlockRef → Prop} :
    (∀ b ∈ hub.blocks, b.id = id → P b) ↔ P block := by
  constructor
  · exact fun hall => hall block held is
  · intro hblock b hb hid
    exact hs.eq_of_id hb held (hid.trans is.symm) ▸ hblock

/-! ### Blocks -/

theorem Sound.append (hs : hub.Sound config) {block : BlockRef}
    (hh : hub.holds block.id = false) :
    ({ hub with blocks := hub.blocks ++ [block] } : Hub).Sound config where
  configured := hs.configured
  registry := hs.registry
  blocks := nodup_map_append_singleton hs.blocks fun _ hb => id_ne_of_not_holds hh hb
  settled h n hn := (hs.settled h n hn).mono fun _ _ hb => List.mem_append_left _ hb

/-- The registry of a hub after a block has arrived. -/
theorem arrive_fst (alive : Nat → Bool) (hub : Hub) (memory : Memory) (block : BlockRef)
    (hh : hub.holds block.id = false) : ∃ sizeOf,
    (hub.arrive alive memory block).1 =
      { registry :=
          if block.identity.holdsTable then
            (hub.registry.registerDevice alive block (memory.bytes block.id) sizeOf).1
          else (hub.registry.linkBlock block).1
        blocks := hub.blocks ++ [block] } := by
  unfold arrive
  rw [if_neg (by simp [hh])]
  simp only
  split
  · refine ⟨fun name =>
      if ({ hub with blocks := hub.blocks ++ [block] } : Hub).config.resizeBlocks then none
      else (({ hub with blocks := hub.blocks ++ [block] } : Hub).deviceBlock? block.identity name).map
        fun b => memory.size b.id, ?_⟩
    generalize hub.registry.registerDevice alive block (memory.bytes block.id) _ = out
    obtain ⟨registry, result, journal⟩ := out
    cases result with
    | error e => rfl
    | ok layouts => simp only; split <;> rfl
  · exact ⟨fun _ => none, rfl⟩

theorem Sound.arrive (hs : hub.Sound config) (memory : Memory) (block : BlockRef) :
    (hub.arrive alive memory block).1.Sound config := by
  cases hh : hub.holds block.id with
  | true =>
    have he : hub.arrive alive memory block = (hub, memory, .ok (), []) := by
      unfold Hub.arrive
      rw [if_pos hh]
    rw [he]
    exact hs
  | false =>
    obtain ⟨sizeOf, he⟩ := hub.arrive_fst alive memory block hh
    have ha := hs.append hh
    have hmem : block ∈ hub.blocks ++ [block] := List.mem_append_right _ (List.mem_singleton_self _)
    rw [he]
    split
    · rcases Registry.registerDevice_spec hs.registry alive block (memory.bytes block.id) sizeOf with
        ⟨why, j, -, hr, -⟩ | ⟨r', layouts, j, n, m, hr, -, hp, rfl, hu, -⟩
      · rw [hr]
        exact ha
      · rw [hr]
        refine ha.updates hu fun m hm => ?_
        obtain rfl := Option.some_inj.1 hm
        obtain ⟨hname, hwf, hold | ⟨-, hnew⟩⟩ := Registry.provided_eq_ok hs.registry hp
        · have hset := (Registry.each_iff hs.registry).1 ha.settled _ n hold
          exact .register hwf hset.linked hmem (Name.ext hname.symm) hset.short
            fun _ => Registry.isShort_of_mem_placed
        · refine .register hwf (fun b hb => ?_) hmem (Name.ext hname.symm) (fun s hs => ?_)
            fun _ => Registry.isShort_of_mem_placed
          · rw [(Network.ofName_eq_ok hnew).1] at hb
            exact absurd hb List.not_mem_nil
          · have hnil : n.signals.items = [] := by
              rw [(Network.ofName_eq_ok hnew).1]
              exact Index.items_empty
            exact absurd (hnil ▸ hs) List.not_mem_nil
    · refine ha.updates (Registry.linkBlock_spec hs.registry block) fun m hm => ?_
      obtain ⟨n, hn, rfl⟩ := Option.map_eq_some_iff.1 hm
      obtain ⟨h, hg, hkey⟩ := (Registry.named?_eq_some_iff hs.registry).1 hn
      exact (ha.settled h n hg).link (hs.registry.each h n hg) hmem (Name.ext hkey.symm)

theorem mem_eraseP_of_ne {blocks : List BlockRef} {b : BlockRef} {id : Nat} (hb : b ∈ blocks)
    (hne : b.id ≠ id) : b ∈ blocks.eraseP fun b => b.id == id := by
  rw [List.mem_eraseP_of_neg (by simpa using hne)]
  exact hb

/-- Blocks without the one of a number. -/
theorem eraseP_eq_filter {blocks : List BlockRef} (hn : (blocks.map BlockRef.id).Nodup) (id : Nat) :
    (blocks.eraseP fun b => b.id == id) = blocks.filter fun b => b.id != id := by
  induction blocks with
  | nil => rfl
  | cons b blocks ih =>
    rw [List.map_cons, List.nodup_cons] at hn
    by_cases hb : b.id = id
    · -- No other block has the number.
      have hrest : blocks.filter (fun b => b.id != id) = blocks := by
        refine List.filter_eq_self.2 fun b' hb' => ?_
        rw [bne_iff_ne, ← hb]
        exact fun hid => hn.1 (hid ▸ List.mem_map_of_mem hb')
      simp [hb, hrest]
    · simp [hb, ih hn.2]

/-- What is left of blocks without the one of a number. -/
theorem mem_eraseP_iff {blocks : List BlockRef} (hn : (blocks.map BlockRef.id).Nodup)
    {b : BlockRef} {id : Nat} :
    (b ∈ blocks.eraseP fun b => b.id == id) ↔ b ∈ blocks ∧ b.id ≠ id := by
  rw [eraseP_eq_filter hn, List.mem_filter, bne_iff_ne]

/-- A hub that gives up a block stays sound if what becomes of the block's
network is settled. -/
theorem Sound.without (hs : hub.Sound config) {block : BlockRef} (hmem : block ∈ hub.blocks)
    {r : Registry} {n? : Option Network}
    (hu : hub.registry.Updates r block.identity.network.text n?)
    (hn : ∀ n, n? = some n → n.Settled config (hub.blocks.eraseP fun b => b.id == block.id)) :
    ({ registry := r, blocks := hub.blocks.eraseP fun b => b.id == block.id } : Hub).Sound
      config where
  configured := hu.config.trans hs.configured
  registry := hu.wellFormed
  blocks := hs.blocks.sublist (List.eraseP_sublist.map _)
  settled := by
    refine (Registry.each_iff hu.wellFormed).2 ?_
    intro name n hn'
    rw [hu.named] at hn'
    split at hn'
    · exact hn n hn'
    · rename_i hne
      obtain ⟨h, hg, hkey⟩ := (Registry.named?_eq_some_iff hs.registry).1 hn'
      have hset := hs.settled h n hg
      -- The shortcuts of another network lead to other blocks.
      refine hset.mono fun b hb hbl => mem_eraseP_of_ne hbl fun hid => hne ?_
      rw [← hs.eq_of_id hbl hmem hid, (hset.linked b hb).2, hkey]

theorem Sound.depart (hs : hub.Sound config) (id : Nat) :
    (hub.depart alive id).1.Sound config := by
  unfold Hub.depart
  split
  · exact hs
  · rename_i block hf
    obtain rfl : block.id = id := by simpa using List.find?_some hf
    have hmem : block ∈ hub.blocks := List.mem_of_find?_eq_some hf
    cases hn : hub.registry.named? block.identity.network.text with
    | none =>
      simp only [Registry.forget_none hs.registry alive hn]
      exact hs.without hmem (.refl hs.registry hn) fun n hn => by cases hn
    | some n =>
      obtain ⟨h, hg, -⟩ := (Registry.named?_eq_some_iff hs.registry).1 hn
      refine hs.without hmem (Registry.forget_spec hs.registry alive block hn).1 fun m hm => ?_
      unfold Registry.afterForget at hm
      simp only at hm
      split at hm
      · exact hs.configured ▸ Network.Settled.leftOver hm
      · rename_i he
        obtain rfl := Option.some_inj.1 hm
        exact (hs.settled h n hg).forget (hs.registry.each h n hg)
          (fun b hb hne => mem_eraseP_of_ne hb hne) (Bool.eq_false_of_not_eq_true he)

theorem blocks_depart (alive : Nat → Bool) (hub : Hub) (id : Nat) :
    (hub.depart alive id).1.blocks = hub.blocks.eraseP fun b => b.id == id := by
  unfold depart
  split
  · rename_i hf
    refine (List.eraseP_of_forall_not fun b hb => ?_).symm
    exact List.find?_eq_none.1 hf b hb
  · rfl

/-- A block that departs is gone, and no block comes. -/
theorem Sound.mem_blocks_depart (hs : hub.Sound config) {id : Nat} {b : BlockRef}
    (hb : b ∈ (hub.depart alive id).1.blocks) : b ∈ hub.blocks ∧ b.id ≠ id := by
  rw [blocks_depart] at hb
  exact (mem_eraseP_iff hs.blocks).1 hb

/-! ### The end -/

theorem Sound.shutDown (hs : hub.Sound config) : hub.shutDown.1.Sound config where
  configured := hs.configured
  registry := Registry.wellFormed_empty hub.registry.config
  blocks := List.nodup_nil
  settled h n hn := by simp [Hub.shutDown, Registry.clear] at hn

/-- A hub without blocks has no network left, or drained ones only. -/
theorem Sound.unfed (hs : hub.Sound config) (hb : hub.blocks = []) {n : Network}
    (hn : n ∈ hub.registry.networks.items) :
    config.removeEmptyNetworks = false ∧ n.phase = .draining ∧ n.signals.items = [] ∧
      n.shortcuts.blocks = [] := by
  obtain ⟨h, hg⟩ := (Index.mem_items hs.registry.networks n).1 hn
  have hset := hs.settled h n hg
  have hnil : n.shortcuts.blocks = [] := by
    rw [List.eq_nil_iff_forall_not_mem]
    intro b hm
    have := (hset.linked b hm).1
    rw [hb] at this
    cases this
  rcases hset.staged with ⟨-, hne⟩ | ⟨hc, hp, hsig⟩
  · exact absurd hnil hne
  · exact ⟨hc, hp, hsig, hnil⟩

end Hub
end SignalRegistry
