/-
# What is left when a block is deleted

A block that is deleted takes along the signals that lie in it and the shortcut
to it, and nothing else (`Site.Deleted`): all that is left keeps its order and
its handles. If its network has no other shortcut, the network goes as well, or
is drained and kept, as configured. From then on no path is bound to the block
until it is reported again. A block that the hub does not hold cannot be
deleted, and the attempt changes nothing.

Key definitions: `Site.Deleted`.
Key theorems: `Site.notHeld_run`, `Site.deleted_depart`.
-/
import SignalRegistry.Proofs.Binding

namespace SignalRegistry

namespace Registry

variable {alive : Nat → Bool} {r : Registry} {block : BlockRef} {n : Network}

/-- A network that has another shortcut forgets the block and goes on. -/
theorem afterForget_fed (hn : n.WellFormed) (halive : ∀ b ∈ n.shortcuts.blocks, alive b.id = true)
    (hother : ∃ b ∈ n.shortcuts.blocks, b.id ≠ block.id) :
    r.afterForget alive block n = some (n.forget alive block).1 := by
  obtain ⟨b, hb, hid⟩ := hother
  have hkept := (Network.mem_blocks_forget hn.shortcuts b).2 ⟨hb, halive b hb, hid⟩
  have hne : ¬ (n.forget alive block).1.shortcuts.isEmpty = true := by
    rw [hn.forget.shortcuts.isEmpty_iff]
    exact List.ne_nil_of_mem hkept
  unfold afterForget
  simp only
  rw [if_neg hne]

/-- A network that has no other shortcut ends. -/
theorem afterForget_unfed (hn : n.WellFormed) (hnone : ∀ b ∈ n.shortcuts.blocks, b.id = block.id) :
    r.afterForget alive block n = r.leftOver (n.forget alive block).1 := by
  have hempty : (n.forget alive block).1.shortcuts.isEmpty = true := by
    rw [hn.forget.shortcuts.isEmpty_iff, List.eq_nil_iff_forall_not_mem]
    intro b hb
    obtain ⟨hmem, -, hid⟩ := (Network.mem_blocks_forget hn.shortcuts b).1 hb
    exact hid (hnone b hmem)
  unfold afterForget
  simp only
  rw [if_pos hempty]

end Registry

namespace Hub

variable {config : Config} {hub : Hub} {alive : Nat → Bool}

/-- A block that goes changes its own network only, and nothing if this is not
there. -/
theorem Departure.updates {m : BlockRef} {out : Hub × Except Error Unit × Journal}
    (hd : Departure alive hub m.id out) (hs : hub.Sound config) (hm : m ∈ hub.blocks) :
    hub.registry.Updates out.1.registry m.identity.network.text
      ((hub.registry.named? m.identity.network.text).bind (hub.registry.afterForget alive m)) ∧
    (hub.registry.named? m.identity.network.text = none → out.1.registry = hub.registry) ∧
    out.2.1 = .ok () := by
  cases hd with
  | unknown absent => exact absurd rfl (id_ne_of_not_holds absent hm)
  | @alone gone held is absent journal notices =>
    obtain rfl := hs.eq_of_id held hm is
    refine ⟨.refl hs.registry ?_, fun _ => rfl, rfl⟩
    rw [absent, Option.bind_none]
  | @forgotten gone held is n before r journal updates notices =>
    obtain rfl := hs.eq_of_id held hm is
    rw [before, Option.bind_some]
    refine ⟨updates, fun hnone => ?_, rfl⟩
    cases hnone

end Hub

namespace Site

variable {config : Config} {s : Site}

/-- What is left, in `s'`, of a site `s` whose hub has given up the block `m`. -/
structure Deleted (config : Config) (s : Site) (m : BlockRef) (s' : Site) : Prop where
  blocks : s'.hub.blocks = s.hub.blocks.filter (· ≠ m)
  unlinked : ∀ h n, s'.hub.registry.networks.get? h = some n → m ∉ n.shortcuts.blocks
  others : ∀ h n, n.name ≠ m.identity.network →
    (s'.hub.registry.networks.get? h = some n ↔ s.hub.registry.networks.get? h = some n)
  absent : s.hub.registry.named? m.identity.network.text = none → s'.hub.registry = s.hub.registry
  /-- The network of the block has another shortcut. -/
  fed : ∀ n, s.hub.registry.named? m.identity.network.text = some n →
    (∃ b ∈ n.shortcuts.blocks, b ≠ m) →
    ∃ n', s'.hub.registry.named? m.identity.network.text = some n' ∧
      n'.name = n.name ∧ n'.phase = n.phase ∧
      n'.signals.toList = n.signals.toList.filter (fun e => !e.2.liesIn m.identity.block.text
        m.identity.device.text m.identity.number) ∧
      n'.shortcuts.toList = n.shortcuts.toList.filter (·.2 ≠ m)
  /-- It has none. -/
  unfed : ∀ n, s.hub.registry.named? m.identity.network.text = some n →
    (∀ b ∈ n.shortcuts.blocks, b = m) →
    if config.removeEmptyNetworks then s'.hub.registry.named? m.identity.network.text = none
    else ∃ n', s'.hub.registry.named? m.identity.network.text = some n' ∧ n'.name = n.name ∧
      n'.phase = .draining ∧ n'.signals.toList = [] ∧ n'.shortcuts.toList = []
  /-- Nothing is bound to the block until it is reported again. -/
  unbound : ∀ later, .arrive m.id ∉ later → ∀ b ref, b.block = some ref →
    (∀ ids, ((s'.run later).resolve ids).2.1 = some b → ref.id ≠ m.id) ∧
    ∀ path own, ((s'.run later).resolvePath path own).2.1 = some b → ref.id ≠ m.id

/-- A block that is not held is held again only after it was reported. -/
theorem notHeld_run (hs : s.hub.Sound config) {id : Nat} (hnot : ∀ b ∈ s.hub.blocks, b.id ≠ id)
    (later : List Action) (hlater : .arrive id ∉ later) :
    ∀ b ∈ (s.run later).hub.blocks, b.id ≠ id := by
  induction later generalizing s with
  | nil => exact hnot
  | cons a later ih =>
    rw [List.mem_cons, not_or] at hlater
    refine ih (sound_act hs a) (fun b hb hid => ?_) hlater.2
    rcases (effect hs a).mem_blocks hs hb with hmem | hadmits
    · exact hnot b hmem hid
    · rw [eq_arrive_of_admits hadmits, hid] at hlater
      exact hlater.1 rfl

/-- Nothing is bound to a block that is not held. -/
theorem id_ne_of_bound (hs : s.hub.Sound config) {id : Nat} (hnot : ∀ b ∈ s.hub.blocks, b.id ≠ id)
    {b : Binding} {ref : BlockRef} (hb : b.block = some ref) :
    (∀ ids, (s.resolve ids).2.1 = some b → ref.id ≠ id) ∧
      ∀ path own, (s.resolvePath path own).2.1 = some b → ref.id ≠ id := by
  have halive : ∀ b ∈ s.hub.blocks, s.isAlive b.id = true := fun b => s.isAlive_of_mem
  refine ⟨fun ids hr => ?_, fun path own hr => hnot ref (bound_of_resolvePath hs hr hb).1⟩
  have hbound : (s.hub.resolve s.isAlive s.memory ids).2.1 = some b := hr
  exact hnot ref (hs.block_of_bound halive hbound hb).1

section Depart

variable {m : BlockRef} {n : Network}

theorem depart_updates (hs : s.hub.Sound config) (hm : m ∈ s.hub.blocks) :
    s.hub.registry.Updates (s.depart m.id).1.hub.registry m.identity.network.text
      ((s.hub.registry.named? m.identity.network.text).bind
        (s.hub.registry.afterForget s.isAlive m)) ∧
    (s.hub.registry.named? m.identity.network.text = none →
      (s.depart m.id).1.hub.registry = s.hub.registry) ∧
    (s.depart m.id).2.1 = .ok () := by
  have hhub : (s.depart m.id).1.hub = (s.hub.depart s.isAlive m.id).1 := s.hub_act_depart m.id
  rw [hhub]
  exact (Hub.departure hs.registry s.isAlive m.id).updates hs hm

/-- What the network of the block becomes. -/
theorem named?_depart (hs : s.hub.Sound config) (hm : m ∈ s.hub.blocks)
    (hn : s.hub.registry.named? m.identity.network.text = some n) :
    (s.depart m.id).1.hub.registry.named? m.identity.network.text =
      s.hub.registry.afterForget s.isAlive m n := by
  have hnamed := (depart_updates hs hm).1.named m.identity.network.text
  rwa [if_pos rfl, hn, Option.bind_some] at hnamed

/-- The shortcuts of the network lead to blocks that are held; of these, the
block is the only one of its number. -/
theorem wellFormed_of_named? (hs : s.hub.Sound config) (hm : m ∈ s.hub.blocks)
    (hn : s.hub.registry.named? m.identity.network.text = some n) :
    n.WellFormed ∧ ∀ b ∈ n.shortcuts.blocks, s.isAlive b.id = true ∧ (b.id = m.id ↔ b = m) := by
  obtain ⟨h, hg, -⟩ := (Registry.named?_eq_some_iff hs.registry).1 hn
  refine ⟨hs.registry.each h n hg, fun b hb => ?_⟩
  have hheld := ((hs.settled h n hg).linked b hb).1
  exact ⟨s.isAlive_of_mem hheld, hs.eq_of_id hheld hm, congrArg BlockRef.id⟩

theorem depart_fed (hs : s.hub.Sound config) (hm : m ∈ s.hub.blocks)
    (hn : s.hub.registry.named? m.identity.network.text = some n)
    (hother : ∃ b ∈ n.shortcuts.blocks, b ≠ m) :
    ∃ n', (s.depart m.id).1.hub.registry.named? m.identity.network.text = some n' ∧
      n'.name = n.name ∧ n'.phase = n.phase ∧
      n'.signals.toList = n.signals.toList.filter (fun e => !e.2.liesIn m.identity.block.text
        m.identity.device.text m.identity.number) ∧
      n'.shortcuts.toList = n.shortcuts.toList.filter (·.2 ≠ m) := by
  obtain ⟨hwf, hheld⟩ := wellFormed_of_named? hs hm hn
  have halive : ∀ b ∈ n.shortcuts.blocks, s.isAlive b.id = true := fun b hb => (hheld b hb).1
  have hother' : ∃ b ∈ n.shortcuts.blocks, b.id ≠ m.id := by
    obtain ⟨b, hb, hne⟩ := hother
    exact ⟨b, hb, (not_congr (hheld b hb).2).2 hne⟩
  refine ⟨(n.forget s.isAlive m).1, ?_, rfl, rfl, Network.signals_forget hwf.signals, ?_⟩
  · rw [named?_depart hs hm hn, Registry.afterForget_fed hwf halive hother']
  · rw [Network.shortcuts_forget hwf.shortcuts halive]
    refine List.filter_congr fun e he => ?_
    rw [Bool.eq_iff_iff, bne_iff_ne, decide_eq_true_iff]
    exact not_congr (hheld e.2 (List.mem_map_of_mem he)).2

theorem depart_unfed (hs : s.hub.Sound config) (hm : m ∈ s.hub.blocks)
    (hn : s.hub.registry.named? m.identity.network.text = some n)
    (hnone : ∀ b ∈ n.shortcuts.blocks, b = m) :
    if config.removeEmptyNetworks then
      (s.depart m.id).1.hub.registry.named? m.identity.network.text = none
    else ∃ n', (s.depart m.id).1.hub.registry.named? m.identity.network.text = some n' ∧
      n'.name = n.name ∧ n'.phase = .draining ∧ n'.signals.toList = [] ∧
      n'.shortcuts.toList = [] := by
  have hwf := (wellFormed_of_named? hs hm hn).1
  have hleft := named?_depart hs hm hn
  have hconfig : s.hub.registry.config = config := hs.configured
  rw [Registry.afterForget_unfed hwf fun b hb => congrArg BlockRef.id (hnone b hb),
    Registry.leftOver, hconfig] at hleft
  split
  · rename_i hremoves
    rw [hleft, if_pos hremoves]
  · rename_i hkeeps
    rw [if_neg hkeeps] at hleft
    exact ⟨_, hleft, rfl, rfl, Index.toList_empty, rfl⟩

theorem deleted_of_sound (hs : s.hub.Sound config) (hm : m ∈ s.hub.blocks) :
    s.Deleted config m (s.depart m.id).1 := by
  have hs' : (s.depart m.id).1.hub.Sound config := sound_act hs (.depart m.id)
  have hleft : ∀ b ∈ (s.depart m.id).1.hub.blocks, b.id ≠ m.id :=
    fun b hb => ((mem_blocks_depart_iff hs m.id).1 hb).2
  obtain ⟨hu, habsent, -⟩ := depart_updates hs hm
  exact {
    blocks := by
      have hhub : (s.depart m.id).1.hub = (s.hub.depart s.isAlive m.id).1 := s.hub_act_depart m.id
      rw [hhub, Hub.blocks_depart, Hub.eraseP_eq_filter hs.blocks]
      refine List.filter_congr fun b hb => ?_
      rw [Bool.eq_iff_iff, bne_iff_ne, decide_eq_true_iff]
      exact not_congr ⟨hs.eq_of_id hb hm, congrArg BlockRef.id⟩
    unlinked := fun h n hg hmem => hleft m ((hs'.settled h n hg).linked m hmem).1 rfl
    others := fun h n hne => hu.others h n fun htext => hne (Name.ext htext)
    absent := habsent
    fed := fun n hn hother => depart_fed hs hm hn hother
    unfed := fun n hn hnone => depart_unfed hs hm hn hnone
    unbound := fun later hlater b ref hb =>
      id_ne_of_bound (sound_run hs' later) (notHeld_run hs' hleft later hlater) hb }

end Depart

/-- **What is left of a network when a block goes.** After every run, a block that is
not held cannot be deleted, and one that is leaves what `Deleted` says. -/
theorem deleted_depart (config : Config) (actions : List Action) :
    let s := (ofConfig config).run actions
    (∀ id, s.hub.holds id = false → s.depart id = (s, .error (.notFound .block), [])) ∧
    ∀ m ∈ s.hub.blocks, (s.depart m.id).2.1 = .ok () ∧ s.Deleted config m (s.depart m.id).1 := by
  intro s
  have hs : s.hub.Sound config := sound_run (Hub.sound_ofConfig config) actions
  refine ⟨fun id hnot => ?_, fun m hm => ⟨?_, deleted_of_sound hs hm⟩⟩
  · have hnone : s.hub.blocks.find? (fun b => b.id == id) = none :=
      List.find?_eq_none.2 fun b hb => by simpa using Hub.id_ne_of_not_holds hnot hb
    simp only [depart, Hub.depart, hnone]
    rfl
  · exact (depart_updates hs hm).2.2

/-- When the block of data goes, the network of the device keeps the shortcut to
its table. -/
theorem deleted_depart_tableFirst : ∃ m : BlockRef,
    ((ofConfig .default).run tableFirst).hub.holds 2 = false ∧
      ((ofConfig .default).run tableFirst).depart 2 =
        ((ofConfig .default).run tableFirst, .error (.notFound .block), []) ∧
      m ∈ ((ofConfig .default).run tableFirst).hub.blocks ∧
      ((ofConfig .default).run tableFirst).Deleted .default m
        (((ofConfig .default).run tableFirst).depart m.id).1 ∧
      (((ofConfig .default).run tableFirst).depart m.id).1.linkedIn m.identity.network.text =
        some [⟨0, (infoBlock "gina" 1).identity⟩] := by
  obtain ⟨m, hm⟩ : ∃ m : BlockRef, m = ⟨1, (dataBlock "gina" 1).identity⟩ := ⟨_, rfl⟩
  obtain ⟨hblocks, hlinked, -⟩ := run_tableFirst
  have hname : m.identity.network.text = "n" := by
    rw [hm]
    exact text_network
  rw [← hm] at hblocks hlinked
  rw [← hname] at hlinked
  obtain ⟨hunknown, hknown⟩ := deleted_depart .default tableFirst
  have hholds : ((ofConfig .default).run tableFirst).hub.holds 2 = false := by
    rw [Hub.holds, hblocks, hm]
    rfl
  have hmem : m ∈ ((ofConfig .default).run tableFirst).hub.blocks := by
    rw [hblocks]
    exact List.mem_cons_of_mem _ (List.mem_singleton_self m)
  have hdeleted := (hknown m hmem).2
  obtain ⟨n, hn, hblocks'⟩ := Option.map_eq_some_iff.1 hlinked
  have hne : (⟨0, (infoBlock "gina" 1).identity⟩ : BlockRef) ≠ m := by
    intro he
    have hid := congrArg BlockRef.id he
    rw [hm] at hid
    exact Nat.zero_ne_one hid
  have hother : ∃ b ∈ n.shortcuts.blocks, b ≠ m := by
    rw [hblocks']
    exact ⟨_, List.mem_cons_self, hne⟩
  obtain ⟨n', hn', -, -, -, hleft⟩ := hdeleted.fed n hn hother
  have hkept : n'.shortcuts.blocks = n.shortcuts.blocks.filter (· ≠ m) := by
    rw [Shortcuts.blocks, hleft, Shortcuts.blocks, List.filter_map]
    rfl
  refine ⟨m, hholds, hunknown 2 hholds, hmem, hdeleted, ?_⟩
  rw [linkedIn, hn', Option.map_some, hkept, hblocks']
  simp [hne]

end Site
end SignalRegistry
