/-
# What a registration leaves in a network

A registration changes a network in three ways: the signals of the table that fit
their blocks are entered, the block of the table gets a shortcut unless there is one
to a living block of its name, and the network is active (`Network.register_eq`).
Signals of other identities stay as they are (`Network.filter_putSignals`).

Only then does the listener hear of it. So the network that it is shown is complete,
and it is the one that is found afterwards (`Site.heard_registerDevice`).

Key definitions: `Shortcuts.attach`, `Network.Registered`, `Registry.entriesOf`.
Key theorems: `Network.register_eq`, `Network.filter_putSignals`,
`Shortcuts.exists_living_attach`, `Network.registered_register`,
`Site.heard_registerDevice`.
-/
import SignalRegistry.Proofs.ArrivalOrder
import SignalRegistry.Proofs.RegistryRuns

namespace SignalRegistry

/-! ### The shortcut to the block of the table -/

namespace Shortcuts

variable {l : Shortcuts} {alive : Nat → Bool} {info : BlockRef}

/-- Adds a shortcut to a block unless there is one. -/
def add (l : Shortcuts) (block : BlockRef) : Shortcuts :=
  match l.handleOf? block.id with
  | some _ => l
  | none => (l.push block).1

/-- Adds a shortcut to a block unless one leads to a living block of its name, device
and number. -/
def attach (alive : Nat → Bool) (l : Shortcuts) (info : BlockRef) : Shortcuts :=
  let i := info.identity
  let (l, found) := l.lookup alive i.block.text i.device.text i.number
  if found.isSome then l else l.add info

theorem attach_of_lookup {l' : Shortcuts} {found : Option BlockRef}
    (hout : l.lookup alive info.identity.block.text info.identity.device.text
      info.identity.number = (l', found)) :
    l.attach alive info = if found.isSome then l' else l'.add info := by
  unfold attach
  simp only [hout]

/-- There is a shortcut to a living block of the name then, as long as no other block
has the number of this one. -/
theorem exists_living_attach (hl : l.WellFormed) (ha : alive info.id = true)
    (hown : ∀ b ∈ l.blocks, b.id = info.id → b = info) :
    ∃ b ∈ (l.attach alive info).blocks, alive b.id = true ∧
      b.identity.isOf info.identity.block.text info.identity.device.text
        info.identity.number = true := by
  let i := info.identity
  have hself : i.isOf i.block.text i.device.text i.number = true :=
    (BlockIdentity.isOf_iff rfl).2 rfl
  obtain ⟨⟨l', found⟩, hout⟩ : ∃ out, l.lookup alive i.block.text i.device.text i.number = out :=
    ⟨_, rfl⟩
  rw [attach_of_lookup hout]
  cases found with
  | some b =>
    obtain ⟨hb, hliving, hof⟩ := lookup_eq_some (congrArg Prod.snd hout)
    obtain ⟨e, he, rfl⟩ := List.mem_map.1 hb
    have hmem := mem_toList_lookup hl i.block.text i.device.text i.number he hliving
    rw [hout] at hmem
    exact ⟨e.2, List.mem_map_of_mem hmem, hliving, hof⟩
  | none =>
    have hwf := hl.lookup alive i.block.text i.device.text i.number
    have hsublist :=
      (toList_lookup_sublist hl alive i.block.text i.device.text i.number).map Prod.snd
    rw [hout] at hwf hsublist
    show ∃ b ∈ (l'.add info).blocks, _
    unfold add
    cases hh : l'.handleOf? info.id with
    | some k =>
      obtain ⟨b, hb, hid⟩ := (handleOf?_isSome l' info.id).1 (Option.isSome_of_eq_some hh)
      obtain rfl := hown b (hsublist.subset hb) hid
      exact ⟨b, hb, ha, hself⟩
    | none =>
      refine ⟨info, ?_, ha, hself⟩
      rw [blocks_push hwf]
      exact List.mem_append_right _ (List.mem_singleton_self info)

end Shortcuts

/-! ### The signals of the table -/

/-- An item that is inserted leaves the entries that do not have a property of it. -/
theorem Index.filter_toList_insert {α : Type} {buckets : Nat} [HasKey α] [Spreads buckets]
    {t : Index α buckets} (h : t.WellFormed) {x : α} {p : α → Bool} (hx : p x = false) :
    (t.insert x).1.toList.filter (fun e => p e.2) = t.toList.filter fun e => p e.2 := by
  rw [(holds_insert h x).toList_eq, toList_eq, List.filter_flatMap, List.filter_flatMap]
  refine List.flatMap_congr fun b _ => ?_
  rw [Function.update_apply]
  split
  · rename_i hb
    rw [hb, List.filter_append, List.filter_cons_of_neg (by simp [hx]), List.filter_nil,
      List.append_nil]
  · rfl

namespace Network

variable {n m : Network} {alive : Nat → Bool} {info : BlockRef}
  {signals : List (Signal × Option Nat)} {p : Signal → Bool}

/-- Of the entries of a table, those stay as they are that do not have a property of
the identity that is put. -/
theorem filter_putSignal (hn : n.WellFormed) (hp : OfIdentity p) {s : Signal} (hs : p s = false) :
    (n.putSignal s).1.signals.toList.filter (fun e => p e.2) =
      n.signals.toList.filter fun e => p e.2 := by
  cases hk : n.sameSignal? s with
  | none =>
    unfold putSignal
    rw [hk]
    exact Index.filter_toList_insert hn.signals hs
  | some h =>
    obtain ⟨t, ht, hid⟩ := sameSignal?_eq_some hn hk
    have hentry : ∀ e ∈ n.signals.toList, e.1 = h → p e.2 = false := by
      rintro e he rfl
      have hget := (Index.mem_toList hn.signals e.1 e.2).1 he
      rw [ht, Option.some_inj] at hget
      rw [← hget, hp t s hid, hs]
    rw [(toList_putSignal hn ht hid).2, List.filter_map]
    have hsame : n.signals.toList.filter ((fun e : Handle × Signal => p e.2) ∘ fun e =>
        if e.1 = h then (h, s) else e) = n.signals.toList.filter fun e => p e.2 := by
      refine List.filter_congr fun e he => ?_
      rw [Function.comp_apply]
      split
      · rename_i hh
        rw [hs, hentry e he hh]
      · rfl
    rw [hsame]
    refine (List.map_congr_left fun e he => ?_).trans (List.map_id _)
    obtain ⟨hmem, hpe⟩ := List.mem_filter.1 he
    refine if_neg fun hh => ?_
    rw [hentry e hmem hh] at hpe
    cases hpe

theorem filter_putSignals (hn : n.WellFormed) (hp : OfIdentity p)
    (hs : ∀ s ∈ placed signals, p s = false) :
    (Registry.putSignals n signals).1.signals.toList.filter (fun e => p e.2) =
      n.signals.toList.filter fun e => p e.2 := by
  have hboth : (Registry.putSignals n signals).1.WellFormed ∧
      (Registry.putSignals n signals).1.signals.toList.filter (fun e => p e.2) =
        n.signals.toList.filter fun e => p e.2 := by
    refine putSignals_induction (P := fun m => m.WellFormed ∧
      m.signals.toList.filter (fun e => p e.2) = n.signals.toList.filter fun e => p e.2)
      ⟨hn, rfl⟩ fun m hm s hmem => ?_
    exact ⟨hm.1.putSignal s, (filter_putSignal hm.1 hp (hs s hmem)).trans hm.2⟩
  exact hboth.2

/-! ### The network afterwards -/

theorem link_eq (n : Network) (block : BlockRef) :
    (n.link block).1 = { n with shortcuts := n.shortcuts.add block } := by
  unfold link Shortcuts.add
  cases n.shortcuts.handleOf? block.id <;> rfl

/-- A registration works on the signals, the shortcuts and the phase, each on its
own. -/
theorem register_eq (alive : Nat → Bool) (n : Network) (info : BlockRef)
    (signals : List (Signal × Option Nat)) : (Registry.register alive n info signals).1 = { n with
      signals := (Registry.putSignals n signals).1.signals
      shortcuts := n.shortcuts.attach alive info
      phase := .active } := by
  obtain ⟨added, ha⟩ := n.putSignals_eq signals
  unfold Registry.register Shortcuts.attach
  simp only [ha, lookup, link_eq]
  split <;> rfl

/-- The signal has the identity of none of these. -/
def isOther (entries : List Signal) (s : Signal) : Bool :=
  decide (∀ t ∈ entries, t.identity ≠ s.identity)

theorem OfIdentity.isOther (entries : List Signal) : OfIdentity (isOther entries) := by
  intro s t hid
  unfold Network.isOther
  rw [hid]

/-- A device has been registered in the network: it is active, it has the last of the
entries of each identity, signals of other identities are under the handles and in the
order they had before, and there is a shortcut to a living block of the device's name. -/
structure Registered (m : Network) (alive : Nat → Bool) (info : BlockRef)
    (entries : List Signal) (before : List (Handle × Signal)) : Prop where
  phase : m.phase = .active
  last : ∀ s ∈ entries, ∃ t ∈ m.signals.items, LastOf entries t ∧ t.identity = s.identity
  others : m.signals.toList.filter (fun e => isOther entries e.2) =
    before.filter fun e => isOther entries e.2
  shortcut : ∃ b ∈ m.shortcuts.blocks, alive b.id = true ∧
    b.identity.isOf info.identity.block.text info.identity.device.text info.identity.number = true

theorem registered_register (hn : n.WellFormed) (ha : alive info.id = true)
    (hown : ∀ b ∈ n.shortcuts.blocks, b.id = info.id → b = info) :
    (Registry.register alive n info signals).1.Registered alive info (placed signals)
      n.signals.toList := by
  rw [register_eq]
  refine ⟨rfl, fun s hs => ?_, ?_, Shortcuts.exists_living_attach hn.shortcuts ha hown⟩
  · obtain ⟨t, hlast, hid⟩ := exists_lastOf hs
    exact ⟨t, (mem_items_putSignals_iff hn signals t).2 (Or.inl hlast), hlast, hid⟩
  · refine filter_putSignals hn (OfIdentity.isOther _) fun s hs => ?_
    exact decide_eq_false fun hnone => hnone s hs rfl

end Network

namespace Registry

variable {r : Registry} {name : String} {n : Network}

/-- The entries of the network of a name, none if there is no such network. -/
def entriesOf (r : Registry) (name : String) : List (Handle × Signal) :=
  (r.named? name).elim [] fun n => n.signals.toList

/-- A network that is found or created has the entries of its name. -/
theorem entriesOf_of_provided (hr : r.WellFormed) (hp : r.provided name = .ok n) :
    r.entriesOf name = n.signals.toList := by
  unfold entriesOf
  obtain ⟨-, -, hn | ⟨hnone, hnew⟩⟩ := provided_eq_ok hr hp
  · rw [hn, Option.elim_some]
  · rw [hnone, Option.elim_none, (Network.ofName_eq_ok hnew).1]
    exact Index.toList_empty.symm

/-- A table that can be read is registered if its network can have its name. -/
theorem registerDevice_ok (hr : r.WellFormed) (alive : Nat → Bool) {info : BlockRef}
    (hname : Network.Accepts info.identity.network) {content : Octets} {layouts : List Layout}
    (hparse : Layout.parse content = .ok layouts) (sizeOf : String → Option Nat) :
    (r.registerDevice alive info content sizeOf).2.1 = .ok layouts := by
  rcases registerDevice_spec hr alive info content sizeOf with
    ⟨why, j, hwhy | hrefused, -, -⟩ | ⟨r', layouts', j, n, m, hout, hparse', -⟩
  · rw [hparse] at hwhy
    cases hwhy
  · exact absurd hname hrefused
  · rw [hparse, Except.ok.injEq] at hparse'
    rw [hout, hparse']

end Registry

namespace Site

open Network (Registered placed)
open Registry (declared deviceNotice greeting reached Operation)

/-- **The listener is shown a network only when it is complete.** When a device is
registered, the listener hears that its network has come, unless it was active, and
that the device has. Each time it is shown the network as it is found afterwards, and
the registration is complete in it. -/
theorem heard_registerDevice (config : Config) (operations : List Operation) {s : Site}
    (hs : s.hub.registry = reached config operations) (hlistening : s.listening = true)
    {alive : Nat → Bool} {info : BlockRef} (ha : alive info.id = true)
    (hown : ∀ o ∈ operations, ∀ b ∈ o.blocks, b.id = info.id → b = info)
    {content : Octets} {sizeOf : String → Option Nat} {layouts : List Layout}
    (hok : (s.hub.registry.registerDevice alive info content sizeOf).2.1 = .ok layouts) :
    let r := s.hub.registry
    let name := info.identity.network.text
    let after := s.perform (.registerDevice alive info content sizeOf)
    Layout.parse content = .ok layouts ∧ ∃ m, after.1.hub.registry.named? name = some m ∧
      heard after.2 = (if r.active name then [] else [greeting m]) ++
        [deviceNotice .newDevice info.identity m] ∧
      m.Registered alive info (placed (declared info.identity sizeOf layouts))
        (r.entriesOf name) := by
  have hr : s.hub.registry.WellFormed := by
    rw [hs]
    exact Registry.wellFormed_reached config operations
  have hleads : s.hub.registry.Each (Registry.LeadsTo fun b => b.id = info.id → b = info) := by
    rw [hs]
    exact Registry.each_reached config operations hown
  intro r name after
  rcases Registry.registerDevice_spec hr alive info content sizeOf with
    ⟨why, j, -, hout, -⟩ | ⟨r', layouts', j, n, m, hout, hparse, hprovided, hm, hu, hnotices⟩
  · rw [hout] at hok
    cases hok
  · rw [hout, Except.ok.injEq] at hok
    subst hok
    refine ⟨hparse, m, ?_, ?_, ?_⟩
    · rw [hub_perform]
      simp only [Registry.perform, hout, hu.named, name, if_true]
    · rw [heard_perform hlistening]
      have hactive : (r.active name = true) = (n.phase = .active) := by
        rw [Registry.provided_phase hprovided, decide_eq_true_eq]
      simp only [Registry.perform, r, hout, hnotices, hactive]
    · rw [hm, Registry.entriesOf_of_provided hr hprovided]
      have hwf := (Registry.provided_eq_ok hr hprovided).2.1
      exact Network.registered_register hwf ha (Registry.leadsTo_provided hr hleads hprovided)

/-- There is a network with a shortcut to its block of data. -/
def linkedFirst : List Operation :=
  [.command (.ensureNetwork "n"), .command (.linkBlock dataRef)]

/-- A table that declares its signal twice has been published, and the listener waits. -/
def awaiting : Site :=
  { published false twiceTable with
    hub := { registry := reached .default linkedFirst }
    listening := true }

theorem placed_twice : placed (declared infoRef.identity (fun _ => none) [twiceLayout]) =
    [dataSignal, lateSignal] := by decide

theorem eq_dataRef_of_mem {o : Operation} (ho : o ∈ linkedFirst) {b : BlockRef}
    (hb : b ∈ o.blocks) : b = dataRef := by
  rcases List.mem_pair.1 ho with rfl | rfl
  · cases hb
  · exact List.mem_singleton.1 hb

theorem active_linkedFirst : (reached .default linkedFirst).active "n" = false := by decide

/-- The listener is shown the signal as it is declared the second time. -/
theorem heard_registerDevice_twice :
    (awaiting.hub.registry.registerDevice awaiting.isAlive infoRef twiceTable.bytes
        fun _ => none).2.1 = .ok [twiceLayout] ∧
      ∃ m, heard (awaiting.perform (.registerDevice awaiting.isAlive infoRef twiceTable.bytes
          fun _ => none)).2 = [greeting m, deviceNotice .newDevice infoRef.identity m] ∧
        lateSignal ∈ m.signals.items := by
  have hr : awaiting.hub.registry.WellFormed := Registry.wellFormed_reached .default linkedFirst
  have hok := Registry.registerDevice_ok hr awaiting.isAlive accepts_infoRef parse_tables.2 fun _ => none
  have hown : ∀ o ∈ linkedFirst, ∀ b ∈ o.blocks, b.id = infoRef.id → b = infoRef := by
    intro o ho b hb hid
    rw [eq_dataRef_of_mem ho hb] at hid
    cases hid
  obtain ⟨-, m, -, hheard, hregistered⟩ :=
    heard_registerDevice .default linkedFirst (s := awaiting) rfl rfl rfl hown hok
  refine ⟨hok, m, ?_, ?_⟩
  · have hnew : awaiting.hub.registry.active infoRef.identity.network.text = false :=
      (congrArg awaiting.hub.registry.active text_network).trans active_linkedFirst
    rw [hheard, hnew, if_neg Bool.false_ne_true]
    rfl
  · rw [placed_twice] at hregistered
    obtain ⟨t, ht, hlast, hid⟩ :=
      hregistered.last lateSignal (List.mem_cons_of_mem _ List.mem_cons_self)
    have hlate : Network.LastOf [dataSignal, lateSignal] lateSignal :=
      ⟨[dataSignal], [], rfl, fun u hu => absurd hu List.not_mem_nil⟩
    rw [← hlast.unique hlate hid]
    exact ht

end Site
end SignalRegistry
