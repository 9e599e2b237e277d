/-
# A selector that is resolved twice

A block that gets a shortcut when a selector is resolved is found through it from
then on (`Hub.blockOf_link`). So a selector that is resolved once more is resolved to
the same (`Hub.Sound.resolve_again`), and the one shortcut is all that is added.

The signal is the first in the order of entry that the selector matches, and its
block one of the list that holds it (`Site.bound_stable`).

Key definitions: `Site.BoundTo`, `Site.AddsShortcut`.
Key theorems: `Hub.blockOf_link`, `Hub.Sound.resolve_again`, `Site.bound_stable`.
-/
import SignalRegistry.Proofs.SignalOrder

namespace SignalRegistry

open Network (SameOrder)

/-! ### Resolving once more -/

namespace Hub

variable {config : Config} {hub : Hub} {alive : Nat → Bool} {memory : Memory} {ids : Selector}
  {h k : Handle} {n : Network} {s : Signal}

/-- A block that has got the first shortcut of its identity is found through it. -/
theorem blockOf_link (halive : ∀ b ∈ hub.blocks, alive b.id = true) {m : BlockRef}
    (hs : hub.Sound config) (hg : hub.registry.networks.get? h = some n) (hfresh : hub.Fresh n m)
    (hm : m.identity = s.blockIn n.name) (network : String) :
    hub.blockOf alive (n.link m).1 network s = ((n.link m).1, some m) := by
  have hwf := hs.registry.each h n hg
  have hset := hs.settled h n hg
  have hof : ∀ b : BlockRef, b.identity.network = n.name →
      (b.identity.isOf s.block.text s.device.text s.number = true ↔ b.identity = m.identity) :=
    fun b hnet => by rw [hm]; exact BlockIdentity.isOf_iff (j := s.blockIn n.name) hnet
  have hnone : n.shortcuts.blocks.find? (fun b =>
      b.identity.isOf s.block.text s.device.text s.number) = none :=
    List.find?_eq_none.2 fun b hb hfound =>
      hfresh.unlinked b hb ((hof b (hset.linked b hb).2).1 hfound)
  have hfound : (n.link m).1.shortcuts.blocks.find? (fun b =>
      b.identity.isOf s.block.text s.device.text s.number) = some m := by
    rw [Network.blocks_link_of_fresh hwf.shortcuts (hfresh.id_ne hs hset), List.find?_append, hnone,
      Option.none_or]
    exact List.find?_cons_of_pos ((hof m hfresh.inside).2 rfl)
  rw [blockOf_eq halive (hset.link hwf hfresh.listed hfresh.inside), hfound]

/-- A selector still leads to the signal when the shortcuts of its network have
changed. -/
theorem Locates.modifyNetwork (hl : hub.Locates ids h k n s) {m : Network}
    (hname : m.name = n.name) (hsignals : m.signals = n.signals)
    (hu : hub.registry.Updates (hub.registry.modifyNetwork h fun _ => m) n.name.text (some m)) :
    ({ hub with registry := hub.registry.modifyNetwork h fun _ => m } : Hub).Locates ids h k m s := by
  have hg : (hub.registry.modifyNetwork h fun _ => m).networks.get? h = some m :=
    Registry.get?_modifyNetwork hl.network _
  have hnamed : m.name = ids.network := hname.trans hl.named
  have hfirst : m.firstMatch? ids = n.firstMatch? ids := by
    unfold Network.firstMatch? Network.matching
    rw [hsignals]
  have hh : (hub.registry.modifyNetwork h fun _ => m).handleOf? ids.network.text = some h :=
    (Registry.handleOf?_eq_some_iff hu.wellFormed).2 ⟨m, hg, congrArg Name.text hnamed⟩
  refine ⟨hl.nonempty, ?_, hg, hnamed, by rw [hsignals]; exact hl.signal⟩
  simp [Registry.locate?, hh, hg, hfirst, hl.firstMatch?]

/-- A selector that is resolved once more is resolved to the same, and nothing is
changed. -/
theorem Sound.resolve_again (hs : hub.Sound config)
    (halive : ∀ b ∈ hub.blocks, alive b.id = true) (memory : Memory) (ids : Selector) :
    (hub.resolve alive memory ids).1.resolve alive memory ids = hub.resolve alive memory ids := by
  rcases resolve_eq_or_locates hs.registry alive memory ids with hnone | ⟨h, k, n, s, hl⟩
  · rw [hnone]
    exact hnone
  rcases blockOf_same_or_fresh halive (hl.settled hs) s with hsame | ⟨m, hfresh, hm, hlinks⟩
  · have hhub : (hub.resolve alive memory ids).1 = hub := by
      simp only [hs.resolve_eq halive hl, hsame, Registry.modifyNetwork_self hl.network]
    rw [hhub]
  · have hu := Registry.updates_modifyNetwork (f := fun _ => (n.link m).1) hs.registry hl.network
      (n.link_name m) ((hs.registry.each h n hl.network).link m)
    have hl' := hl.modifyNetwork (n.link_name m) (n.link_signals m) hu
    have hs' := hs.resolve halive memory ids
    rw [hs.resolve_eq halive hl, hlinks] at hs' ⊢
    -- The list of blocks, in which the search is made, has not changed.
    have hsearch : ({ hub with registry := hub.registry.modifyNetwork h fun _ => (n.link m).1 } :
        Hub).blockOf alive (n.link m).1 n.name.text s = ((n.link m).1, some m) :=
      blockOf_link halive hs hl.network hfresh hm n.name.text
    have hsame : (hub.registry.modifyNetwork h fun _ => (n.link m).1).modifyNetwork h
        (fun _ => (n.link m).1) = hub.registry.modifyNetwork h fun _ => (n.link m).1 :=
      Registry.modifyNetwork_self hl'.network
    simp only [hs'.resolve_eq halive hl', n.link_name, hsearch, hsame]

end Hub

namespace Site

variable {config : Config} {s : Site} {ids : Selector} {b : Binding}

/-- What is resolved is remarked on at most, so nothing but the hub changes. -/
theorem resolve_fst (hs : s.hub.Sound config) (ids : Selector) :
    (s.resolve ids).1 = { s with hub := (s.hub.resolve s.isAlive s.memory ids).1 } := by
  have hnotices := hs.notices_resolve (fun b => s.isAlive_of_mem) s.memory ids
  unfold resolve
  simp only [deliver_fst, Journal.events, hnotices, List.map_nil, List.foldl_nil]

theorem resolve_again (hs : s.hub.Sound config) (ids : Selector) :
    (s.resolve ids).1.resolve ids = s.resolve ids := by
  have hblocks := (hs.resolves (fun b => s.isAlive_of_mem) s.memory ids).blocks
  have halive : ({ s with hub := (s.hub.resolve s.isAlive s.memory ids).1 } : Site).isAlive =
      s.isAlive := by
    funext k
    have hholds : (s.hub.resolve s.isAlive s.memory ids).1.holds k = s.hub.holds k := by
      rw [Hub.holds, hblocks, ← Hub.holds]
    show (s.held.contains k || (s.hub.resolve s.isAlive s.memory ids).1.holds k) = s.isAlive k
    rw [hholds, isAlive]
  have hagain := hs.resolve_again (fun b => s.isAlive_of_mem) s.memory ids
  rw [resolve_fst hs]
  unfold resolve
  simp only [halive, hagain]

/-- The selector is bound to the first signal of the record that it matches, in the
network that it names, and, if to a block, to one of the list that has the
identity that the signal names and holds the signal. -/
structure BoundTo (s : Site) (r : SignalRecord) (ids : Selector) (b : Binding) : Prop where
  network : b.network = ids.network
  first : r.find? (Network.selects ids) = some b.signal
  block : ∀ m, b.block = some m → m ∈ s.hub.blocks ∧
    m.identity = b.signal.blockIn ids.network ∧ b.signal.stop ≤ s.memory.size m.id

/-- The sites differ in one shortcut, which comes last in a network of the name. -/
def AddsShortcut (s s' : Site) (name : NetworkName) : Prop :=
  ∃ h n k m shortcuts, s.hub.registry.networks.get? h = some n ∧ n.name = name ∧
    shortcuts.toList = n.shortcuts.toList ++ [(k, m)] ∧
    s' = { s with hub := { s.hub with
      registry := s.hub.registry.modifyNetwork h fun _ => { n with shortcuts := shortcuts } } }

theorem boundTo_of_resolve (hs : s.hub.Sound config) {r : SignalRecord}
    (hr : SameOrder r (s.hub.registry.signalsOf ids.network.text))
    (hb : (s.resolve ids).2.1 = some b) : s.BoundTo r ids b := by
  have halive : ∀ b ∈ s.hub.blocks, s.isAlive b.id = true := fun b => s.isAlive_of_mem
  have hb : (s.hub.resolve s.isAlive s.memory ids).2.1 = some b := hb
  rcases Hub.resolve_eq_or_locates hs.registry s.isAlive s.memory ids with hnone | ⟨h, k, n, sig, hl⟩
  · rw [hnone] at hb
    cases hb
  · have hbound := hb
    rw [hs.resolve_eq halive hl] at hbound
    simp only [Binding.ofFound_eq, Option.some.injEq] at hbound
    have hnetwork : b.network = ids.network := by rw [← hbound, hl.named]
    refine ⟨hnetwork, ?_, fun m hm => ?_⟩
    · rw [hr.find?_eq fun _ => Network.name_of_selects,
        Registry.signalsOf_of_named? (hl.named? hs.registry), hl.find?_eq hs.registry, ← hbound]
    · rw [← hnetwork]
      exact hs.block_of_bound halive hb hm

theorem resolve_same_or_addsShortcut (hs : s.hub.Sound config) (ids : Selector) :
    (s.resolve ids).1 = s ∨ s.AddsShortcut (s.resolve ids).1 ids.network := by
  rw [resolve_fst hs]
  cases hs.resolves (fun b => s.isAlive_of_mem) s.memory ids with
  | same eq =>
    left
    rw [eq]
  | @links h n m network named fresh updates eq =>
    right
    have hwf := (hs.registry.each h n network).shortcuts
    have hlink := Network.link_of_fresh (fresh.id_ne hs (hs.settled h n network))
    refine ⟨h, n, _, m, (n.shortcuts.push m).1, network, named, Shortcuts.toList_push hwf m, ?_⟩
    rw [eq, hlink]

/-- **Resolving is stable.** In every reachable state a selector is bound, if at all,
to the signal that was entered first of those that it matches, and to a block of
the list that holds it. No more than a shortcut is added, and if the selector is
resolved once more, it is to the same, and nothing is changed. -/
theorem bound_stable (config : Config) (actions : List Action) (ids : Selector) :
    let s := (ofConfig config).run actions
    let r := SignalRecord.after ids.network (ofConfig config) [] actions
    (∀ t, t ∈ r ↔ t ∈ s.hub.registry.signalsOf ids.network.text) ∧
    (∀ b, (s.resolve ids).2.1 = some b → s.BoundTo r ids b) ∧
    ((s.resolve ids).1 = s ∨ s.AddsShortcut (s.resolve ids).1 ids.network) ∧
    (s.resolve ids).1.resolve ids = s.resolve ids := by
  intro s r
  have hstart : (ofConfig config).hub.Sound config := Hub.sound_ofConfig config
  have hs : s.hub.Sound config := sound_run hstart actions
  have horder : SameOrder r (s.hub.registry.signalsOf ids.network.text) := by
    refine SignalRecord.sameOrder_after hstart ?_ actions
    have hempty : (ofConfig config).hub.registry.signalsOf ids.network.text = [] :=
      Registry.signalsOf_empty config ids.network.text
    rw [hempty]
    exact .refl _
  exact ⟨horder.mem_iff, fun b hb => boundTo_of_resolve hs horder hb,
    resolve_same_or_addsShortcut hs ids, resolve_again hs ids⟩

/-! ### A block that comes before its network -/

/-- The path to the signal of the device. -/
def ginaPath : Selector := .parse .signal "" "t.exp.gina1.n"

/-- Before its signal is resolved, the block has no shortcut. -/
theorem resolve_dataFirst :
    SignalRecord.after ginaPath.network (ofConfig .default) [] dataFirst = [dataSignal] ∧
    ((ofConfig .default).run dataFirst).linkedIn "n" =
      some [⟨1, (infoBlock "gina" 1).identity⟩] ∧
    (((ofConfig .default).run dataFirst).resolve ginaPath).2.1 =
      some ⟨.cut 24 "n", dataSignal, some ⟨0, (dataBlock "gina" 1).identity⟩⟩ ∧
    (((ofConfig .default).run dataFirst).resolve ginaPath).1.linkedIn "n" =
      some [⟨1, (infoBlock "gina" 1).identity⟩, ⟨0, (dataBlock "gina" 1).identity⟩] := by
  decide +kernel

/-- A block that came before its network gets its shortcut when its signal is
resolved, and no other when that is resolved again. -/
theorem bound_dataFirst :
    let s := (ofConfig .default).run dataFirst
    s.BoundTo [dataSignal] ginaPath
        ⟨.cut 24 "n", dataSignal, some ⟨0, (dataBlock "gina" 1).identity⟩⟩ ∧
      s.AddsShortcut (s.resolve ginaPath).1 ginaPath.network ∧
      (s.resolve ginaPath).1.resolve ginaPath = s.resolve ginaPath := by
  obtain ⟨-, hbound, hadds, hagain⟩ := bound_stable .default dataFirst ginaPath
  obtain ⟨hrecord, hbefore, hbinding, hlinked⟩ := resolve_dataFirst
  rw [hrecord] at hbound
  refine ⟨hbound _ hbinding, hadds.resolve_left fun hsame => ?_, hagain⟩
  rw [hsame, hbefore] at hlinked
  simp at hlinked

end Site
end SignalRegistry
