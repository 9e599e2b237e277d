/-
# What resolving does

In a sound hub no shortcut leads to a block that is gone, so the search for the
block of a signal releases none. The block is found through a shortcut, or in the
list, and then gets a shortcut, or not at all (`Hub.blockOf_eq`). So a hub in which a
selector is resolved stays as it is, or one block of its list gets a shortcut in
its network, in which no shortcut led to its identity (`Hub.Sound.resolves`).

Key definitions: `Binding.ofFound`, `Hub.Locates`, `Hub.Resolves`.
Key theorems: `Hub.Sound.resolves`, `Hub.Sound.resolve_eq`,
`Hub.Sound.resolve_eq_some`, `Hub.Sound.resolve_binding`.
-/
import SignalRegistry.Proofs.Hub

namespace SignalRegistry

/-- What a signal is bound to if this block is found for it, and what is remarked:
a block that is too small counts as none. -/
def Binding.ofFound (memory : Memory) (network : NetworkName) (s : Signal) :
    Option BlockRef → Binding × Journal
  | none => (⟨network, s, none⟩, [])
  | some b =>
    if s.stop ≤ memory.size b.id then (⟨network, s, some b⟩, [])
    else (⟨network, s, none⟩, .ofRemark (.blockTooSmall s (memory.size b.id)))

namespace Binding

variable (memory : Memory) (network : NetworkName) (s : Signal) (found : Option BlockRef)

theorem ofFound_eq : (ofFound memory network s found).1 =
    ⟨network, s, found.filter fun b => s.stop ≤ memory.size b.id⟩ := by
  cases found with
  | none => rfl
  | some b =>
    rw [Option.filter_some]
    unfold ofFound
    simp only [decide_eq_true_eq]
    split <;> rfl

theorem notices_ofFound : (ofFound memory network s found).2.notices = [] := by
  cases found with
  | none => rfl
  | some b =>
    unfold ofFound
    simp only
    split <;> rfl

end Binding

namespace Hub

variable {config : Config} {hub : Hub} {alive : Nat → Bool} {memory : Memory} {ids : Selector}
  {h k : Handle} {n : Network} {s : Signal}

/-! ### The search for the block of a signal -/

theorem blockNamed?_eq_some {block device network : String} {number : UInt32} {b : BlockRef}
    (hb : hub.blockNamed? block device number network = some b) :
    b ∈ hub.blocks ∧ b.identity.network.text = network ∧
      b.identity.isOf block device number = true := by
  refine ⟨List.mem_of_find?_eq_some hb, ?_⟩
  have := List.find?_some hb
  rwa [Bool.and_eq_true, beq_iff_eq] at this

/-- The block is found through a shortcut, which changes nothing, or in the list,
and gets a shortcut, or not at all. -/
theorem blockOf_eq (halive : ∀ b ∈ hub.blocks, alive b.id = true)
    (hset : n.Settled config hub.blocks) (network : String) (s : Signal) :
    hub.blockOf alive n network s =
      match n.shortcuts.blocks.find? fun b =>
        b.identity.isOf s.block.text s.device.text s.number with
      | some b => (n, some b)
      | none =>
        match hub.blockNamed? s.block.text s.device.text s.number network with
        | some b => ((n.link b).1, some b)
        | none => (n, none) := by
  have hliving : ∀ b ∈ n.shortcuts.blocks, alive b.id = true :=
    fun b hb => halive b (hset.linked b hb).1
  unfold blockOf
  rw [Network.lookup_of_living _ _ _ hliving]
  cases n.shortcuts.blocks.find? fun b =>
      b.identity.isOf s.block.text s.device.text s.number with
  | some b => rfl
  | none => rfl

/-- The block of a signal is the first one that a shortcut leads to, or else the
first one in the list. -/
theorem blockOf_snd (halive : ∀ b ∈ hub.blocks, alive b.id = true)
    (hset : n.Settled config hub.blocks) (network : String) (s : Signal) :
    (hub.blockOf alive n network s).2 =
      (n.shortcuts.blocks.find? fun b =>
        b.identity.isOf s.block.text s.device.text s.number).or
      (hub.blockNamed? s.block.text s.device.text s.number network) := by
  rw [blockOf_eq halive hset]
  cases n.shortcuts.blocks.find? fun b =>
      b.identity.isOf s.block.text s.device.text s.number with
  | some b => rfl
  | none =>
    cases hub.blockNamed? s.block.text s.device.text s.number network with
    | some b => rfl
    | none => rfl

/-- A block that gets a shortcut is one of the list that is in the network, and the
first of its identity to have one there. -/
structure Fresh (hub : Hub) (n : Network) (b : BlockRef) : Prop where
  listed : b ∈ hub.blocks
  inside : b.identity.network = n.name
  unlinked : ∀ b' ∈ n.shortcuts.blocks, b'.identity ≠ b.identity

theorem Fresh.id_ne {b : BlockRef} (hf : hub.Fresh n b) (hs : hub.Sound config)
    (hset : n.Settled config hub.blocks) : ∀ b' ∈ n.shortcuts.blocks, b'.id ≠ b.id :=
  fun b' hb' hid => hf.unlinked b' hb'
    (congrArg BlockRef.identity (hs.eq_of_id (hset.linked b' hb').1 hf.listed hid))

/-- A search leaves the network as it is, or gives a shortcut to the block that it
finds. -/
theorem blockOf_same_or_fresh (halive : ∀ b ∈ hub.blocks, alive b.id = true)
    (hset : n.Settled config hub.blocks) (s : Signal) :
    (hub.blockOf alive n n.name.text s).1 = n ∨
      ∃ b, hub.Fresh n b ∧ b.identity = s.blockIn n.name ∧
        hub.blockOf alive n n.name.text s = ((n.link b).1, some b) := by
  rw [blockOf_eq halive hset]
  cases hlinked : n.shortcuts.blocks.find? fun b =>
      b.identity.isOf s.block.text s.device.text s.number with
  | some b => exact Or.inl rfl
  | none =>
    cases hnamed : hub.blockNamed? s.block.text s.device.text s.number n.name.text with
    | none => exact Or.inl rfl
    | some b =>
      obtain ⟨hmem, hnet, hof⟩ := blockNamed?_eq_some hnamed
      have hid : b.identity = s.blockIn n.name :=
        (BlockIdentity.isOf_iff (j := s.blockIn n.name) (Name.ext hnet)).1 hof
      refine Or.inr ⟨b, ⟨hmem, Name.ext hnet, fun b' hb' heq => ?_⟩, hid, rfl⟩
      -- A shortcut to this identity would have been found first.
      exact List.find?_eq_none.1 hlinked b' hb' (heq ▸ hof)

/-! ### The signal of a selector -/

/-- The selector leads to a signal: to the first that it matches in the network it
names. -/
structure Locates (hub : Hub) (ids : Selector) (h k : Handle) (n : Network) (s : Signal) : Prop where
  nonempty : ids.isEmpty = false
  located : hub.registry.locate? ids = some (h, k)
  network : hub.registry.networks.get? h = some n
  named : n.name = ids.network
  signal : n.signals.get? k = some s

namespace Locates

theorem firstMatch? (hl : hub.Locates ids h k n s) : n.firstMatch? ids = some k := by
  obtain ⟨-, m, hm, hfirst⟩ := Registry.locate?_eq_some hl.located
  rw [hl.network] at hm
  exact Option.some.inj hm ▸ hfirst

theorem signal_ne_empty (hl : hub.Locates ids h k n s) : ids.signal.text ≠ "" := by
  intro hempty
  have hfirst := hl.firstMatch?
  have hmatching : n.matching ids = [] := if_pos ((Name.isEmpty_iff ids.signal).2 hempty)
  unfold Network.firstMatch? at hfirst
  rw [hmatching] at hfirst
  cases hfirst

theorem named? (hl : hub.Locates ids h k n s) (hr : hub.registry.WellFormed) :
    hub.registry.named? ids.network.text = some n :=
  (Registry.named?_eq_some_iff hr).2 ⟨h, hl.network, congrArg Name.text hl.named⟩

theorem find?_eq (hl : hub.Locates ids h k n s) (hr : hub.registry.WellFormed) :
    n.signals.items.find? (Network.selects ids) = some s := by
  have hbind := Network.firstMatch?_bind (hr.each h n hl.network).signals hl.signal_ne_empty
  rw [hl.firstMatch?, Option.bind_some, hl.signal] at hbind
  exact hbind.symm

theorem settled (hl : hub.Locates ids h k n s) (hs : hub.Sound config) :
    n.Settled config hub.blocks :=
  hs.settled h n hl.network

end Locates

/-- A selector leads to a signal, or is resolved to none and nothing is done. -/
theorem resolve_eq_or_locates (hr : hub.registry.WellFormed) (alive : Nat → Bool)
    (memory : Memory) (ids : Selector) :
    hub.resolve alive memory ids = (hub, none, []) ∨ ∃ h k n s, hub.Locates ids h k n s := by
  cases hempty : ids.isEmpty with
  | true =>
    left
    unfold Hub.resolve
    rw [hempty, if_pos rfl]
  | false =>
    cases hl : hub.registry.locate? ids with
    | none =>
      left
      unfold Hub.resolve
      rw [hempty, if_neg Bool.false_ne_true, hl]
    | some found =>
      right
      obtain ⟨h, k⟩ := found
      obtain ⟨-, n, hg, hfirst⟩ := Registry.locate?_eq_some hl
      have hname := Registry.name_of_locate? hr hl hg
      have hsignal : ∃ s, n.signals.get? k = some s := by
        obtain ⟨e, he, rfl⟩ := Option.map_eq_some_iff.1 hfirst
        have hmem := List.mem_of_head? he
        unfold Network.matching at hmem
        split at hmem
        · cases hmem
        · have hchain := (List.mem_filter.1 hmem).1
          exact ⟨e.2, Index.Holds.get?_of_mem (hr.each h n hg).signals hchain⟩
      obtain ⟨s, hs⟩ := hsignal
      exact ⟨h, k, n, s, hempty, hl, hg, Name.ext hname, hs⟩

/-- A selector leads to the first signal that it matches in the network it names. -/
theorem exists_locates (hr : hub.registry.WellFormed) (hids : ids.signal.text ≠ "")
    (hn : hub.registry.named? ids.network.text = some n)
    (hs : n.signals.items.find? (Network.selects ids) = some s) : ∃ h k, hub.Locates ids h k n s := by
  obtain ⟨h, hg, hkey⟩ := (Registry.named?_eq_some_iff hr).1 hn
  have hh := (Registry.handleOf?_eq_some_iff hr).2 ⟨n, hg, hkey⟩
  rw [← Network.firstMatch?_bind (hr.each h n hg).signals hids, Option.bind_eq_some_iff] at hs
  obtain ⟨k, hk, hsignal⟩ := hs
  have hne : ids.isEmpty = false := by
    have : ids.signal.isEmpty = false := by
      rw [← Bool.not_eq_true, Name.isEmpty_iff]
      exact hids
    simp [Selector.isEmpty, this]
  have hl : hub.registry.locate? ids = some (h, k) := by simp [Registry.locate?, hh, hg, hk]
  exact ⟨h, k, hne, hl, hg, Name.ext hkey, hsignal⟩

/-! ### Resolving -/

/-- The block is searched for, and the shortcuts of the network change as it
does. -/
theorem Sound.resolve_eq (hs : hub.Sound config) (halive : ∀ b ∈ hub.blocks, alive b.id = true)
    (hl : hub.Locates ids h k n s) : hub.resolve alive memory ids =
    let search := hub.blockOf alive n n.name.text s
    let bound := Binding.ofFound memory n.name s search.2
    ({ hub with registry := hub.registry.modifyNetwork h fun _ => search.1 }, some bound.1,
      bound.2) := by
  have hsignal : hub.registry.signal? h k = some s := by
    unfold Registry.signal?
    rw [hl.network]
    exact hl.signal
  have hname : (hub.blockOf alive n n.name.text s).1.name = n.name := by
    rcases blockOf_same_or_fresh halive (hl.settled hs) s with hsame | ⟨b, -, -, hlinks⟩
    · rw [hsame]
    · rw [hlinks, Network.link_name]
  unfold resolve
  rw [hl.nonempty, if_neg Bool.false_ne_true]
  simp only [hl.located, hl.network, hsignal, ← hl.named]
  generalize hub.blockOf alive n n.name.text s = search at hname
  obtain ⟨m, found⟩ := search
  simp only at hname
  cases found with
  | none => simp only [hname, Network.cut_name, Binding.ofFound]
  | some b =>
    simp only [hname, Network.cut_name, Binding.ofFound]
    split <;> rfl

/-- What resolving does to a hub: nothing, or a block gets a shortcut in the network
that the selector names. -/
inductive Resolves (hub : Hub) (ids : Selector) (hub' : Hub) : Prop where
  | same (eq : hub' = hub)
  | links {h : Handle} {n : Network} {b : BlockRef}
      (network : hub.registry.networks.get? h = some n) (named : n.name = ids.network)
      (fresh : hub.Fresh n b)
      (updates : hub.registry.Updates (hub.registry.modifyNetwork h fun _ => (n.link b).1)
        n.name.text (some (n.link b).1))
      (eq : hub' = { hub with registry := hub.registry.modifyNetwork h fun _ => (n.link b).1 })

theorem Sound.resolves (hs : hub.Sound config) (halive : ∀ b ∈ hub.blocks, alive b.id = true)
    (memory : Memory) (ids : Selector) : hub.Resolves ids (hub.resolve alive memory ids).1 := by
  rcases resolve_eq_or_locates hs.registry alive memory ids with hnone | ⟨h, k, n, s, hl⟩
  · exact .same (congrArg Prod.fst hnone)
  · rw [hs.resolve_eq halive hl]
    rcases blockOf_same_or_fresh halive (hl.settled hs) s with hsame | ⟨b, hfresh, -, hlinks⟩
    · refine .same ?_
      simp only [hsame, Registry.modifyNetwork_self hl.network]
    · have hwf := hs.registry.each h n hl.network
      refine .links hl.network hl.named hfresh ?_ (by simp only [hlinks])
      exact Registry.updates_modifyNetwork hs.registry hl.network (n.link_name b) (hwf.link b)

theorem Resolves.blocks {hub' : Hub} (h : hub.Resolves ids hub') : hub'.blocks = hub.blocks := by
  cases h with
  | same eq => rw [eq]
  | links network named fresh updates eq => rw [eq]

theorem Resolves.sound {hub' : Hub} (h : hub.Resolves ids hub') (hs : hub.Sound config) :
    hub'.Sound config := by
  cases h with
  | same eq => exact eq ▸ hs
  | @links h n b network named fresh updates eq =>
    have hset := (hs.settled h n network).link (hs.registry.each h n network) fresh.listed
      fresh.inside
    exact eq ▸ hs.updates updates fun m hm => Option.some.inj hm ▸ hset

theorem Sound.resolve (hs : hub.Sound config) (halive : ∀ b ∈ hub.blocks, alive b.id = true)
    (memory : Memory) (ids : Selector) : (hub.resolve alive memory ids).1.Sound config :=
  (hs.resolves halive memory ids).sound hs

/-- Nothing is notified. -/
theorem Sound.notices_resolve (hs : hub.Sound config)
    (halive : ∀ b ∈ hub.blocks, alive b.id = true) (memory : Memory) (ids : Selector) :
    (hub.resolve alive memory ids).2.2.notices = [] := by
  rcases resolve_eq_or_locates hs.registry alive memory ids with hnone | ⟨h, k, n, s, hl⟩
  · rw [hnone]
    rfl
  · rw [hs.resolve_eq halive hl]
    exact Binding.notices_ofFound _ _ _ _

/-- What a selector is bound to: a signal of the network that it names, and the
signal's block if that is large enough. -/
theorem Sound.resolve_eq_some (hs : hub.Sound config)
    (halive : ∀ b ∈ hub.blocks, alive b.id = true) {b : Binding}
    (hb : (hub.resolve alive memory ids).2.1 = some b) :
    ∃ h n, hub.registry.networks.get? h = some n ∧ b.network = n.name ∧
      b.signal ∈ n.signals.items ∧
      b.block = ((n.shortcuts.blocks.find? fun m =>
          m.identity.isOf b.signal.block.text b.signal.device.text b.signal.number).or
        (hub.blockNamed? b.signal.block.text b.signal.device.text b.signal.number
          b.network.text)).filter fun m => b.signal.stop ≤ memory.size m.id := by
  rcases resolve_eq_or_locates hs.registry alive memory ids with hnone | ⟨h, k, n, s, hl⟩
  · rw [hnone] at hb
    cases hb
  · rw [hs.resolve_eq halive hl] at hb
    obtain rfl := Option.some.inj hb
    have hsignals := (hs.registry.each h n hl.network).signals
    refine ⟨h, n, hl.network, ?_⟩
    rw [Binding.ofFound_eq, blockOf_snd halive (hl.settled hs)]
    exact ⟨rfl, (Index.mem_items hsignals s).2 ⟨k, hl.signal⟩, rfl⟩

/-- The block of a binding is one that the hub holds, of the identity that the
signal names, and the signal ends within it. -/
theorem Sound.block_of_bound (hs : hub.Sound config)
    (halive : ∀ b ∈ hub.blocks, alive b.id = true) {b : Binding} {m : BlockRef}
    (hb : (hub.resolve alive memory ids).2.1 = some b) (hm : b.block = some m) :
    m ∈ hub.blocks ∧ m.identity = b.signal.blockIn b.network ∧
      b.signal.stop ≤ memory.size m.id := by
  obtain ⟨h, n, hg, hname, -, hblock⟩ := hs.resolve_eq_some halive hb
  rw [hm, eq_comm, Option.filter_eq_some_iff, Option.or_eq_some_iff] at hblock
  obtain ⟨hfound, hstop⟩ := hblock
  have hidentity : m.identity.network = b.network →
      m.identity.isOf b.signal.block.text b.signal.device.text b.signal.number = true →
      m.identity = b.signal.blockIn b.network :=
    fun hnet hof => (BlockIdentity.isOf_iff (j := b.signal.blockIn b.network) hnet).1 hof
  refine ⟨?_, ?_, of_decide_eq_true hstop⟩
  · rcases hfound with hlinked | ⟨-, hnamed⟩
    · exact ((hs.settled h n hg).linked m (List.mem_of_find?_eq_some hlinked)).1
    · exact (blockNamed?_eq_some hnamed).1
  · rcases hfound with hlinked | ⟨-, hnamed⟩
    · have hnet := ((hs.settled h n hg).linked m (List.mem_of_find?_eq_some hlinked)).2
      have hof := List.find?_some hlinked
      exact hidentity (hnet.trans hname.symm) hof
    · obtain ⟨-, hnet, hof⟩ := blockNamed?_eq_some hnamed
      exact hidentity (Name.ext hnet) hof

/-- A selector resolves to the first signal that it matches in the network it
names. -/
theorem Sound.resolve_binding (hs : hub.Sound config)
    (halive : ∀ b ∈ hub.blocks, alive b.id = true) (memory : Memory)
    (hids : ids.signal.text ≠ "") (hn : hub.registry.named? ids.network.text = some n) :
    (hub.resolve alive memory ids).2.1.map (fun b => (b.network, b.signal)) =
      (n.signals.items.find? (Network.selects ids)).map fun s => (n.name, s) := by
  cases hfind : n.signals.items.find? (Network.selects ids) with
  | some s =>
    obtain ⟨h, k, hl⟩ := exists_locates hs.registry hids hn hfind
    simp only [hs.resolve_eq halive hl, Binding.ofFound_eq, Option.map_some]
  | none =>
    rcases resolve_eq_or_locates hs.registry alive memory ids with hnone | ⟨h, k, m, s, hl⟩
    · rw [hnone]
      rfl
    · rw [hl.named? hs.registry] at hn
      obtain rfl := Option.some.inj hn
      rw [hl.find?_eq hs.registry] at hfind
      cases hfind

/-! ### Paths -/

theorem resolvePath_binding (alive : Nat → Bool) (hub : Hub) (memory : Memory) (path : String) :
    (hub.resolvePath alive memory path none).2.1 =
      (hub.resolve alive memory (hub.selector .signal path)).2.1 := by
  unfold resolvePath
  simp only
  split
  all_goals
    rename_i he
    rw [he]

/-- A path is bound to what some selector is. -/
theorem resolvePath_answer (alive : Nat → Bool) (hub : Hub) (memory : Memory) (path : String)
    (own : Option String) : ∃ ids,
      (hub.resolvePath alive memory path own).2.1 = (hub.resolve alive memory ids).2.1 := by
  unfold resolvePath
  simp only
  split
  all_goals
    rename_i he
    exact ⟨_, (congrArg (fun out => out.2.1) he).symm⟩

theorem Sound.resolvePath (hs : hub.Sound config)
    (halive : ∀ b ∈ hub.blocks, alive b.id = true) (memory : Memory) (path : String)
    (own : Option String) :
    (hub.resolvePath alive memory path own).1.Sound config := by
  unfold Hub.resolvePath
  simp only
  split
  all_goals
    rename_i he
    have hfst := congrArg Prod.fst he
    simp only at hfst
    rw [← hfst]
    exact hs.resolve halive memory _

theorem getPath_fst (alive : Nat → Bool) (hub : Hub) (memory : Memory) (path : String) :
    (hub.getPath alive memory path).1 = (hub.resolvePath alive memory path none).1 := by
  unfold getPath
  split <;> rename_i he <;> rw [he]

theorem setPath_fst (alive : Nat → Bool) (hub : Hub) (memory : Memory) (path : String)
    (value : Value) :
    (hub.setPath alive memory path value).1 = (hub.resolvePath alive memory path none).1 := by
  unfold setPath
  split <;> rename_i he <;> rw [he]

end Hub
end SignalRegistry
