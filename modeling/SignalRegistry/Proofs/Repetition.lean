/-
# A device that is registered again

A table that is registered a second time says nothing new. Its signals are in the
network already, so each of them only has its layout changed, and what is entered of an
identity last is what was there at first (`Network.putSignals_again`): for a moment a
signal that is declared twice has the layout of its first declaration. A search for the
block of the table has released what it would release (`Shortcuts.lookup_again`), and
finds the shortcut that was added.

So the registry is the same as before, down to its handles and free cells, and only the
device is announced again (`Registry.registerDevice_again`).

Key definitions: `Index.SameShape`, `Network.Relaid`.
Key theorems: `Index.SameShape.eq`, `Network.putSignals_again`,
`Shortcuts.attach_again`, `Network.register_again`, `Registry.registerDevice_again`.
-/
import SignalRegistry.Proofs.Registration

namespace SignalRegistry

/-! ### An index of other items -/

/-- The generation of a cell, and what follows its item if it has one. -/
def Cell.shape {α : Type} (c : Cell (Link α)) : UInt32 × Option (Option Handle) :=
  (c.generation, c.content.map Link.next)

theorem Cell.eq_of_shape {α : Type} {c c' : Cell (Link α)} (hshape : c.shape = c'.shape)
    (hitem : c.content.map Link.item = c'.content.map Link.item) : c = c' := by
  obtain ⟨content, generation⟩ := c
  obtain ⟨content', generation'⟩ := c'
  obtain ⟨rfl, hnext⟩ := Prod.mk.inj hshape
  congr 1
  cases content with
  | none => exact (Option.map_eq_none_iff.1 hitem.symm).symm
  | some link =>
    obtain ⟨link', rfl, hitem⟩ := Option.map_eq_some_iff.1 hitem.symm
    cases link
    cases link'
    cases hitem
    cases hnext
    rfl

namespace Index

variable {α : Type} {buckets : Nat} {t t' t'' : Index α buckets}

/-- The cells and chains of both are the same, whatever the items are. -/
structure SameShape (t t' : Index α buckets) : Prop where
  heads : t.heads = t'.heads
  size : t.size = t'.size
  free : t.arena.free = t'.arena.free
  cells : t.arena.cells.map Cell.shape = t'.arena.cells.map Cell.shape

namespace SameShape

theorem refl (t : Index α buckets) : t.SameShape t := ⟨rfl, rfl, rfl, rfl⟩

theorem trans (h : t.SameShape t') (h' : t'.SameShape t'') : t.SameShape t'' :=
  ⟨h.heads.trans h'.heads, h.size.trans h'.size, h.free.trans h'.free, h.cells.trans h'.cells⟩

theorem modify (t : Index α buckets) (h : Handle) (f : α → α) : (t.modify h f).SameShape t where
  heads := rfl
  size := rfl
  free := by
    unfold Index.modify Arena.modify
    split <;> rfl
  cells := by
    unfold Index.modify Arena.modify
    split
    · refine Array.ext_getElem? fun i => ?_
      simp only [Array.getElem?_map, Array.getElem?_modify]
      split
      · rw [Option.map_map]
        refine Option.map_congr fun c _ => ?_
        simp [Cell.shape, Option.map_map, Function.comp_def]
      · rfl
    · rfl

/-- Such indexes are the same if every handle leads to the same item in both. -/
theorem eq (h : t.SameShape t') (hget : ∀ k, t.get? k = t'.get? k) : t = t' := by
  have hcells : t.arena.cells = t'.arena.cells := by
    refine Array.ext_getElem? fun i => ?_
    have hshape := congrArg (·[i]?) h.cells
    simp only [Array.getElem?_map] at hshape
    cases hc : t.arena.cells[i]? with
    | none =>
      rw [hc, Option.map_none] at hshape
      exact (Option.map_eq_none_iff.1 hshape.symm).symm
    | some c =>
      rw [hc, Option.map_some] at hshape
      obtain ⟨c', hc', hshape⟩ := Option.map_eq_some_iff.1 hshape.symm
      have hgeneration : c'.generation = c.generation := congrArg Prod.fst hshape
      have hitem := hget ⟨i, c.generation⟩
      simp only [Index.get?, Arena.get?, hc, hc', hgeneration, if_true] at hitem
      rw [hc', Cell.eq_of_shape hshape hitem.symm]
  obtain ⟨heads, ⟨cells, free⟩, size⟩ := t
  obtain ⟨heads', ⟨cells', free'⟩, size'⟩ := t'
  obtain ⟨rfl, rfl, rfl, -⟩ := h
  obtain rfl := hcells
  rfl

end SameShape

end Index

/-! ### Signals that are there already -/

namespace Network

variable {n m k : Network} {alive : Nat → Bool} {info : BlockRef}
  {signals : List (Signal × Option Nat)}

/-- The network has the same signals under the same handles, if with other layouts, and
all else is the same. -/
structure Relaid (n m : Network) : Prop where
  rest : m = { n with signals := m.signals }
  shape : m.signals.SameShape n.signals
  identities : ∀ h, (m.signals.get? h).map Signal.identity = (n.signals.get? h).map Signal.identity

/-- A signal of the identity is in the network. -/
def Knows (n : Network) (i : Signal.Identity) : Prop :=
  ∃ h t, n.signals.get? h = some t ∧ t.identity = i

namespace Relaid

theorem refl (n : Network) : n.Relaid n := ⟨rfl, .refl _, fun _ => rfl⟩

theorem trans (h : n.Relaid m) (h' : m.Relaid k) : n.Relaid k where
  rest := by rw [h'.rest, h.rest]
  shape := h'.shape.trans h.shape
  identities i := (h'.identities i).trans (h.identities i)

theorem knows (h : n.Relaid m) {i : Signal.Identity} (hi : n.Knows i) : m.Knows i := by
  obtain ⟨k, t, ht, hid⟩ := hi
  have hk := h.identities k
  rw [ht, Option.map_some] at hk
  obtain ⟨u, hu, hid'⟩ := Option.map_eq_some_iff.1 hk
  exact ⟨k, u, hu, hid'.trans hid⟩

/-- A network is the same if its signals still have the layouts they had. -/
theorem eq (h : n.Relaid m) (hn : n.WellFormed)
    (hm : ∀ k t, m.signals.get? k = some t → ∃ k', n.signals.get? k' = some t) : m = n := by
  have hsignals : m.signals = n.signals := by
    refine h.shape.eq fun k => ?_
    have hk := h.identities k
    cases ht : m.signals.get? k with
    | none =>
      rw [ht, Option.map_none] at hk
      exact (Option.map_eq_none_iff.1 hk.symm).symm
    | some t =>
      rw [ht, Option.map_some] at hk
      obtain ⟨u, hu, hid⟩ := Option.map_eq_some_iff.1 hk.symm
      obtain ⟨k', hk'⟩ := hm k t ht
      rw [hn.identity k k' u t hu hk' hid, hk']
  rw [h.rest, hsignals]

end Relaid

/-- A signal that is known is given its layout. -/
theorem relaid_putSignal (hn : n.WellFormed) {s : Signal} (hs : n.Knows s.identity) :
    n.Relaid (n.putSignal s).1 := by
  obtain ⟨h, t, ht, hid⟩ := hs
  cases hk : n.sameSignal? s with
  | none => exact absurd hid (sameSignal?_eq_none hn hk ht)
  | some k =>
    let refresh (t : Signal) : Signal :=
      { t with address := s.address, count := s.count, columns := s.columns, type := s.type }
    have hput : (n.putSignal s).1 = { n with signals := n.signals.modify k refresh } := by
      unfold putSignal
      rw [hk]
    rw [hput]
    refine ⟨rfl, .modify n.signals k refresh, fun i => ?_⟩
    rw [Index.get?_modify]
    split
    · rw [Option.map_map]
      rfl
    · rfl

/-- So is each of them that is known, one after the other: an earlier layout comes back
until the last one is put. -/
theorem relaid_putSignals (hn : n.WellFormed) (hs : ∀ s ∈ placed signals, n.Knows s.identity) :
    n.Relaid (Registry.putSignals n signals).1 := by
  have hboth : (Registry.putSignals n signals).1.WellFormed ∧
      n.Relaid (Registry.putSignals n signals).1 := by
    refine putSignals_induction (P := fun m => m.WellFormed ∧ n.Relaid m) ⟨hn, .refl n⟩
      fun m hm s hmem => ?_
    obtain ⟨hwf, hrelaid⟩ := hm
    exact ⟨hwf.putSignal s, hrelaid.trans (relaid_putSignal hwf (hrelaid.knows (hs s hmem)))⟩
  exact hboth.2

/-- Signals change nothing if the last of each identity is there as it is. -/
theorem putSignals_again (hn : n.WellFormed)
    (hlast : ∀ t, LastOf (placed signals) t → t ∈ n.signals.items) :
    (Registry.putSignals n signals).1 = n := by
  have hknows : ∀ s ∈ placed signals, n.Knows s.identity := by
    intro s hs
    obtain ⟨t, ht, hid⟩ := exists_lastOf hs
    obtain ⟨h, hget⟩ := (Index.mem_items hn.signals t).1 (hlast t ht)
    exact ⟨h, t, hget, hid⟩
  refine (relaid_putSignals hn hknows).eq hn fun k t ht => ?_
  have hmem := (Index.mem_items (hn.putSignals signals).signals t).2 ⟨k, ht⟩
  refine (Index.mem_items hn.signals t).1 ?_
  rcases (mem_items_putSignals_iff hn signals t).1 hmem with hl | ⟨hold, -⟩
  · exact hlast t hl
  · exact hold

end Network

/-! ### A shortcut that is there already -/

namespace Shortcuts

variable {l : Shortcuts} {alive : Nat → Bool} {info : BlockRef} {block device : String}
  {number : UInt32}

/-- If those of `p` are left out that do not have `q`, up to the first that has, this one
is the first of `p` that is left. -/
theorem find?_of_released {β : Type} (p q : β → Bool) (l : List β) :
    (((l.takeWhile fun e => !(p e && q e)).filter fun e => !(p e && !q e)) ++
      l.dropWhile fun e => !(p e && q e)).find? p = l.find? fun e => p e && q e := by
  induction l with
  | nil => rfl
  | cons e l ih =>
    cases hp : p e with
    | false => simpa [hp] using ih
    | true =>
      cases hq : q e with
      | false => simpa [hp, hq] using ih
      | true => simp [hp, hq]

/-- After a search, the first shortcut of the name is that to the block that was found. -/
theorem find?_lookup (hl : l.WellFormed) (alive : Nat → Bool) (block device : String)
    (number : UInt32) : (l.lookup alive block device number).1.toList.find?
        (fun e => e.2.identity.isOf block device number) =
      l.toList.find? fun e => e.2.identity.isOf block device number && alive e.2.id := by
  rw [toList_lookup hl]
  exact find?_of_released _ (fun e => alive e.2.id) l.toList

/-- The same search again changes nothing and finds the same. -/
theorem lookup_again (hl : l.WellFormed) (alive : Nat → Bool) (block device : String)
    (number : UInt32) : (l.lookup alive block device number).1.lookup alive block device number =
      l.lookup alive block device number := by
  have hfind := find?_lookup hl alive block device number
  rw [lookup_of_first alive fun e he => ?_]
  · refine Prod.ext rfl ?_
    rw [hfind, lookup_snd]
  · rw [hfind] at he
    have hhit := List.find?_some he
    exact (Bool.and_eq_true_iff.1 hhit).2

/-- A shortcut that is pushed is the first of its name if there was none. -/
theorem find?_push (hl : l.WellFormed) (hnone : l.toList.find? (fun e => e.2.identity.isOf
      info.identity.block.text info.identity.device.text info.identity.number) = none) :
    (l.push info).1.toList.find? (fun e => e.2.identity.isOf info.identity.block.text
      info.identity.device.text info.identity.number) = some ((l.push info).2, info) := by
  have hself := (BlockIdentity.isOf_iff (i := info.identity) rfl).2 rfl
  rw [toList_push hl, List.find?_append, hnone, Option.none_or]
  exact List.find?_cons_of_pos hself

/-- What is attached is found when it is to be attached again. -/
theorem attach_again (hl : l.WellFormed) (ha : alive info.id = true) :
    (l.attach alive info).attach alive info = l.attach alive info := by
  let i := info.identity
  obtain ⟨⟨l', found⟩, hout⟩ : ∃ out, l.lookup alive i.block.text i.device.text i.number = out :=
    ⟨_, rfl⟩
  have hagain := lookup_again hl alive i.block.text i.device.text i.number
  rw [hout] at hagain
  rw [attach_of_lookup hout]
  cases found with
  | some b => exact attach_of_lookup hagain
  | none =>
    show (l'.add info).attach alive info = l'.add info
    cases hh : l'.handleOf? info.id with
    | some k =>
      have hadd : l'.add info = l' := by simp only [add, hh]
      rw [hadd, attach_of_lookup hagain]
      exact hadd
    | none =>
      -- Nothing of the name was found, so the shortcut that is pushed is the first one.
      have hadd : l'.add info = (l'.push info).1 := by simp only [add, hh]
      have hwf := hl.lookup alive i.block.text i.device.text i.number
      have hfind := find?_lookup hl alive i.block.text i.device.text i.number
      have hsnd := lookup_snd l alive i.block.text i.device.text i.number
      rw [hout] at hwf hfind hsnd
      have hfirst := find?_push hwf (hfind.trans (Option.map_eq_none_iff.1 hsnd.symm))
      have hpushed := lookup_of_first alive fun e he => by
        rw [hfirst, Option.some_inj] at he
        exact he ▸ ha
      rw [hfirst] at hpushed
      rw [hadd]
      exact attach_of_lookup hpushed

end Shortcuts

/-! ### A network that is registered in again -/

namespace Network

variable {n : Network} {alive : Nat → Bool} {info : BlockRef}
  {signals : List (Signal × Option Nat)}

theorem register_again (hn : n.WellFormed) (ha : alive info.id = true) :
    let m := (Registry.register alive n info signals).1
    (Registry.register alive m info signals).1 = m := by
  intro m
  have hm : m.WellFormed := hn.register
  have hsignals : (Registry.putSignals m signals).1 = m := by
    refine putSignals_again hm fun t ht => ?_
    show t ∈ (Registry.register alive n info signals).1.signals.items
    rw [register_signals]
    exact (mem_items_putSignals_iff hn signals t).2 (Or.inl ht)
  have hattached : m.shortcuts = n.shortcuts.attach alive info :=
    congrArg Network.shortcuts (register_eq alive n info signals)
  have hshortcuts : m.shortcuts.attach alive info = m.shortcuts := by
    rw [hattached, Shortcuts.attach_again hn.shortcuts ha]
  rw [register_eq, hsignals, hshortcuts]
  rfl

end Network

namespace Registry

variable {alive : Nat → Bool} {info : BlockRef}

/-- A registration that finds its network active, and changes nothing in it, announces
the device and does nothing else. -/
theorem registerDevice_of_unchanged {r : Registry} {content : Octets}
    {sizeOf : String → Option Nat} {layouts : List Layout}
    (hparse : Layout.parse content = .ok layouts) {h : Handle} {n : Network}
    (hh : r.handleOf? info.identity.network.text = some h) (hg : r.networks.get? h = some n)
    (hphase : n.phase = .active)
    (hsame : (register alive n info (declared info.identity sizeOf layouts)).1 = n) :
    let out := r.registerDevice alive info content sizeOf
    out.1 = r ∧ out.2.1 = .ok layouts ∧
      out.2.2.notices = [deviceNotice .newDevice info.identity n] := by
  have hensure : r.ensureNetwork info.identity.network.text = (r, .ok h, []) := by
    unfold ensureNetwork
    rw [hh]
  have hout : r.registerDevice alive info content sizeOf = (r, .ok layouts, Journal.ofRemarks
      (register alive n info (declared info.identity sizeOf layouts)).2 ++
        [r.notice .newDevice (some h) (some info.identity)]) := by
    simp only [registerDevice, hparse, hensure, hg, hsame, modifyNetwork_self hg, hphase, if_true,
      List.nil_append, List.append_nil]
  intro out
  rw [show out = _ from hout]
  refine ⟨rfl, rfl, ?_⟩
  rw [notice_block hg, Journal.notices_append, Journal.notices_ofRemarks, List.nil_append]
  rfl

/-- **To register a device again changes nothing.** A device that was registered, and
is registered again at once, leaves the registry as it is. The answer is the same,
and only the device is announced. -/
theorem registerDevice_again (config : Config) (operations : List Operation)
    (alive : Nat → Bool) (info : BlockRef) (ha : alive info.id = true) {content : Octets}
    {sizeOf : String → Option Nat} {layouts : List Layout}
    (hok : ((reached config operations).registerDevice alive info content sizeOf).2.1 =
      .ok layouts) :
    let first := (reached config operations).registerDevice alive info content sizeOf
    let second := first.1.registerDevice alive info content sizeOf
    second.1 = first.1 ∧ second.2.1 = .ok layouts ∧
      ∃ n, first.1.named? info.identity.network.text = some n ∧ n.phase = .active ∧
        second.2.2.notices = [deviceNotice .newDevice info.identity n] := by
  have hr := wellFormed_reached config operations
  rcases registerDevice_spec hr alive info content sizeOf with
    ⟨why, j, -, hout, -⟩ | ⟨r', layouts', j, n, m, hout, hparse, hprovided, hm, hu, -⟩
  · rw [hout] at hok
    cases hok
  · rw [hout, Except.ok.injEq] at hok
    subst hok
    rw [hout]
    have hnamed : r'.named? info.identity.network.text = some m := by rw [hu.named, if_pos rfl]
    obtain ⟨h, hg, hkey⟩ := (named?_eq_some_iff hu.wellFormed).1 hnamed
    have hh := (handleOf?_eq_some_iff hu.wellFormed).2 ⟨m, hg, hkey⟩
    have hphase : m.phase = .active := by rw [hm, Network.register_phase]
    have hsame : (register alive m info (declared info.identity sizeOf layouts')).1 = m := by
      rw [hm]
      exact Network.register_again (provided_eq_ok hr hprovided).2.1 ha
    obtain ⟨hregistry, hanswer, hnotices⟩ := registerDevice_of_unchanged hparse hh hg hphase hsame
    exact ⟨hregistry, hanswer, m, hnamed, hphase, hnotices⟩

open Site (accepts_infoRef infoRef linkedFirst parse_tables twiceLayout twiceTable) in
/-- So it is with a table that declares its signal twice. -/
theorem registerDevice_again_twice :
    let first := (reached .default linkedFirst).registerDevice (fun _ => true) infoRef
      twiceTable.bytes fun _ => none
    let second := first.1.registerDevice (fun _ => true) infoRef twiceTable.bytes fun _ => none
    first.2.1 = .ok [twiceLayout] ∧ second.1 = first.1 ∧ second.2.1 = .ok [twiceLayout] ∧
      second.2.2.notices.map (fun notice => notice.1.kind) = [.newDevice] := by
  have hr := wellFormed_reached .default linkedFirst
  have hok := registerDevice_ok hr (fun _ => true) accepts_infoRef parse_tables.2 fun _ => none
  obtain ⟨hsame, hanswer, n, -, -, hnotices⟩ :=
    registerDevice_again .default linkedFirst (fun _ => true) infoRef rfl hok
  refine ⟨hok, hsame, hanswer, ?_⟩
  rw [hnotices]
  rfl

end Registry
end SignalRegistry
