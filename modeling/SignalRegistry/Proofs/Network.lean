/-
# What the operations of a network keep

The tables of a network are well-formed, no two of its signals have the same
name, block, device and number, and no two shortcuts lead to the same block
(`Network.WellFormed`). Every operation keeps that, and each touches one table
only: signals come and go in the one, shortcuts in the other, and the phase
changes with a registration or not at all.

Key definitions: `Network.WellFormed`, `Network.placed`.
Key theorems: `Network.WellFormed.register`, `Network.WellFormed.forget`,
`Network.blocks_register_ne_nil`, `Network.sameOrder_putSignals`,
`Network.mem_items_putSignals_iff`.
-/
import SignalRegistry.Proofs.Entering
import SignalRegistry.Proofs.Index
import SignalRegistry.Proofs.Shortcuts
import SignalRegistry.Registry

namespace SignalRegistry

namespace Network

/-- The tables are sound, and no signal or block is in them twice. -/
structure WellFormed (n : Network) : Prop where
  signals : n.signals.WellFormed
  shortcuts : n.shortcuts.WellFormed
  identity : n.signals.Separates Signal.identity
  blocks : (n.shortcuts.blocks.map BlockRef.id).Nodup

/-- An empty network has exactly the name it was asked for. -/
theorem ofName_eq_ok {name : String} {n : Network} (h : ofName name = .ok n) :
    n = { name := n.name, short := n.short } ∧ n.name.text = name ∧ name ≠ "" := by
  unfold ofName at h
  simp only at h
  split at h
  · cases h
  · rename_i ht
    split at h
    · cases h
    · rename_i he
      obtain rfl := Except.ok.inj h
      refine ⟨rfl, not_not.1 ht, fun h' => he ?_⟩
      rw [h', String.isEmpty_iff]

theorem wellFormed_of_empty {n : Network} (hs : n.signals = .empty) (hc : n.shortcuts = .empty) :
    n.WellFormed where
  signals := hs ▸ Index.WellFormed.empty
  shortcuts := hc ▸ Shortcuts.WellFormed.empty
  identity := hs ▸ Index.Separates.empty
  blocks := by rw [hc]; exact List.nodup_nil

theorem wellFormed_ofName {name : String} {n : Network} (h : ofName name = .ok n) : n.WellFormed := by
  have hn := (ofName_eq_ok h).1
  exact wellFormed_of_empty (congrArg Network.signals hn) (congrArg Network.shortcuts hn)

/-! ### Signals -/

theorem sameSignal?_eq_some {n : Network} (hn : n.WellFormed) {s : Signal} {h : Handle}
    (hs : n.sameSignal? s = some h) : ∃ t, n.signals.get? h = some t ∧ t.identity = s.identity := by
  obtain ⟨t, ht, hkey, hlies⟩ := Index.find?_eq_some hn.signals hs
  exact ⟨t, ht, (s.identity_eq_iff t).2 ⟨hkey, hlies⟩⟩

theorem sameSignal?_eq_none {n : Network} (hn : n.WellFormed) {s : Signal}
    (hs : n.sameSignal? s = none) {k : Handle} {t : Signal} (ht : n.signals.get? k = some t) :
    t.identity ≠ s.identity := by
  intro hid
  obtain ⟨hkey, hlies⟩ := (s.identity_eq_iff t).1 hid
  rw [Index.find?_eq_none hn.signals hs ht hkey] at hlies
  cases hlies

theorem putSignal_eq (n : Network) (s : Signal) :
    ∃ signals, (n.putSignal s).1 = { n with signals := signals } := by
  unfold putSignal
  split
  · exact ⟨_, rfl⟩
  · exact ⟨_, rfl⟩

theorem WellFormed.putSignal {n : Network} (hn : n.WellFormed) (s : Signal) :
    (n.putSignal s).1.WellFormed := by
  unfold Network.putSignal
  split
  · rename_i h hs
    refine ⟨?_, hn.shortcuts, hn.identity.mono fun k y hy => ?_, hn.blocks⟩
    · refine hn.signals.modify h (fun t => { t with
        address := s.address, count := s.count, columns := s.columns, type := s.type }) fun t _ => ?_
      rfl
    rw [Index.get?_modify] at hy
    split at hy
    · obtain ⟨x, hx, rfl⟩ := Option.map_eq_some_iff.1 hy
      exact ⟨x, hx, rfl⟩
    · exact ⟨y, hy, rfl⟩
  · rename_i hs
    exact ⟨hn.signals.insert s, hn.shortcuts,
      hn.identity.insert hn.signals fun k y hy => sameSignal?_eq_none hn hs hy, hn.blocks⟩

/-- A signal that is added is entered in the table, as far as the order of the
signals of one name goes. -/
theorem sameOrder_putSignal {n : Network} (hn : n.WellFormed) (s : Signal) :
    SameOrder (n.putSignal s).1.signals.items (enter n.signals.items s) := by
  unfold putSignal
  cases hs : n.sameSignal? s with
  | some h =>
    obtain ⟨u, hu, hid⟩ := sameSignal?_eq_some hn hs
    let refresh (t : Signal) : Signal :=
      { t with address := s.address, count := s.count, columns := s.columns, type := s.type }
    have hentered : enter n.signals.items s =
        n.signals.items.map fun t => if t.identity = s.identity then s else t :=
      if_pos ⟨u, (Index.mem_items hn.signals u).2 ⟨h, hu⟩, hid⟩
    have hitems : (n.signals.modify h refresh).items = enter n.signals.items s := by
      rw [Index.items_modify hn.signals h refresh fun t _ => rfl, hentered, Index.items, List.map_map]
      refine List.map_congr_left fun e he => ?_
      have hget := (Index.mem_toList hn.signals e.1 e.2).1 he
      -- The handle is that of the only signal of the identity.
      by_cases hide : e.2.identity = s.identity
      · have hhandle : h = e.1 := hn.identity h e.1 u e.2 hu hget (hid.trans hide.symm)
        exact ((if_pos hhandle).trans (Signal.refresh_eq hide)).trans (if_pos hide).symm
      · have hhandle : h ≠ e.1 := by
          rintro rfl
          rw [hu, Option.some_inj] at hget
          exact hide (hget ▸ hid)
        exact (if_neg hhandle).trans (if_neg hide).symm
    show SameOrder (n.signals.modify h refresh).items _
    rw [hitems]
    exact .refl _
  | none =>
    have hentered : enter n.signals.items s = n.signals.items ++ [s] := by
      refine if_neg ?_
      rintro ⟨t, ht, hid⟩
      obtain ⟨k, hk⟩ := (Index.mem_items hn.signals t).1 ht
      exact sameSignal?_eq_none hn hs hk hid
    intro name
    rw [hentered, List.filter_append]
    refine Index.filter_items_insert hn.signals s name.text fun t ht => ?_
    exact congrArg Name.text (of_decide_eq_true ht)

/-- The signals that fit their blocks, as far as these are known. -/
def placed (signals : List (Signal × Option Nat)) : List Signal :=
  (signals.filter fun entry => Registry.fits entry.1 entry.2).map Prod.fst

theorem mem_placed_iff {signals : List (Signal × Option Nat)} {s : Signal} :
    s ∈ placed signals ↔ ∃ size, (s, size) ∈ signals ∧ Registry.fits s size = true := by
  unfold placed
  simp only [List.mem_map, List.mem_filter, Prod.exists, exists_and_right, exists_eq_right]

theorem placed_cons_of_fits {s : Signal} {size : Option Nat} (h : Registry.fits s size = true)
    (more : List (Signal × Option Nat)) : placed ((s, size) :: more) = s :: placed more :=
  congrArg (List.map Prod.fst) (List.filter_cons_of_pos h)

theorem placed_cons_of_not_fits {s : Signal} {size : Option Nat}
    (h : ¬ Registry.fits s size = true) (more : List (Signal × Option Nat)) :
    placed ((s, size) :: more) = placed more :=
  congrArg (List.map Prod.fst) (List.filter_cons_of_neg h)

/-- The signals that fit are put one after the other. -/
theorem putSignals_fst (n : Network) (signals : List (Signal × Option Nat)) :
    (Registry.putSignals n signals).1 =
      (placed signals).foldl (fun m s => (m.putSignal s).1) n := by
  induction signals generalizing n with
  | nil => rfl
  | cons entry more ih =>
    obtain ⟨s, size⟩ := entry
    unfold Registry.putSignals
    by_cases hfits : Registry.fits s size = true
    · rw [if_pos hfits, placed_cons_of_fits hfits, List.foldl_cons]
      exact ih (n.putSignal s).1
    · rw [if_neg hfits, placed_cons_of_not_fits hfits]
      exact ih n

/-- What is kept by every signal that fits is kept by all of them. -/
theorem putSignals_induction {P : Network → Prop} {n : Network}
    {signals : List (Signal × Option Nat)} (hn : P n)
    (hput : ∀ m, P m → ∀ s ∈ placed signals, P (m.putSignal s).1) :
    P (Registry.putSignals n signals).1 := by
  rw [putSignals_fst]
  exact List.foldlRecOn (placed signals) _ hn hput

theorem putSignals_eq (n : Network) (signals : List (Signal × Option Nat)) :
    ∃ added, (Registry.putSignals n signals).1 = { n with signals := added } := by
  refine putSignals_induction (P := fun m => ∃ added, m = { n with signals := added })
    ⟨n.signals, rfl⟩ ?_
  rintro m ⟨added, rfl⟩ s -
  exact putSignal_eq _ s

theorem WellFormed.putSignals {n : Network} (hn : n.WellFormed)
    (signals : List (Signal × Option Nat)) : (Registry.putSignals n signals).1.WellFormed :=
  putSignals_induction hn fun _ hm s _ => hm.putSignal s

theorem sameOrder_putSignals {n : Network} (hn : n.WellFormed)
    (signals : List (Signal × Option Nat)) :
    SameOrder (Registry.putSignals n signals).1.signals.items
      ((placed signals).foldl enter n.signals.items) := by
  rw [putSignals_fst]
  induction placed signals generalizing n with
  | nil => exact .refl _
  | cons s more ih =>
    rw [List.foldl_cons, List.foldl_cons]
    exact (ih (hn.putSignal s)).trans ((sameOrder_putSignal hn s).foldl_enter more)

/-- Of the signals that fit, the last of each identity is in the table, and all
that have no identity of these stay. -/
theorem mem_items_putSignals_iff {n : Network} (hn : n.WellFormed)
    (signals : List (Signal × Option Nat)) (t : Signal) :
    t ∈ (Registry.putSignals n signals).1.signals.items ↔ LastOf (placed signals) t ∨
      t ∈ n.signals.items ∧ ∀ s ∈ placed signals, s.identity ≠ t.identity :=
  ((sameOrder_putSignals hn signals).mem_iff t).trans (mem_foldl_enter_iff _ _ t)

theorem name_of_selects {ids : Selector} {s : Signal} (hs : selects ids s = true) :
    s.name = ids.signal := by
  rw [selects, Bool.and_eq_true, beq_iff_eq] at hs
  exact hs.1

/-- The first signal that a selector matches, in the order of all signals. -/
theorem firstMatch?_bind {n : Network} (hn : n.signals.WellFormed) {ids : Selector}
    (hids : ids.signal.text ≠ "") :
    (n.firstMatch? ids).bind n.signals.get? = n.signals.items.find? (selects ids) := by
  have hkey : ∀ s, selects ids s = true → HasKey.key s = ids.signal.text :=
    fun s hs => congrArg Name.text (name_of_selects hs)
  have hne : ids.signal.isEmpty = false := by
    rw [← Bool.not_eq_true, Name.isEmpty_iff]
    exact hids
  rw [Index.find?_items hn ids.signal.text hkey]
  simp only [firstMatch?, matching, hne, Bool.false_eq_true, if_false, List.head?_filter]
  cases hf : (n.signals.chain ids.signal.text).find? fun e => selects ids e.2 with
  | none => rfl
  | some e =>
    rw [Option.map_some, Option.bind_some, Option.map_some]
    exact Index.Holds.get?_of_mem hn (List.mem_of_find?_eq_some hf)

/-! ### Shortcuts -/

@[simp] theorem link_name (n : Network) (b : BlockRef) : (n.link b).1.name = n.name := by
  unfold link; split <;> rfl

@[simp] theorem link_phase (n : Network) (b : BlockRef) : (n.link b).1.phase = n.phase := by
  unfold link; split <;> rfl

@[simp] theorem link_signals (n : Network) (b : BlockRef) : (n.link b).1.signals = n.signals := by
  unfold link; split <;> rfl

/-- A block has one shortcut after it was linked, and no other shortcut is
added. -/
theorem blocks_link {n : Network} (hn : n.shortcuts.WellFormed) (b : BlockRef) :
    (n.link b).1.shortcuts.blocks = n.shortcuts.blocks ∧ (∃ b' ∈ n.shortcuts.blocks, b'.id = b.id) ∨
      (n.link b).1.shortcuts.blocks = n.shortcuts.blocks ++ [b] ∧
        ∀ b' ∈ n.shortcuts.blocks, b'.id ≠ b.id := by
  unfold link
  cases hh : n.shortcuts.handleOf? b.id with
  | some h => exact Or.inl ⟨rfl, (n.shortcuts.handleOf?_isSome b.id).1 (by rw [hh]; rfl)⟩
  | none =>
    refine Or.inr ⟨Shortcuts.blocks_push hn b, fun b' hb' hid => ?_⟩
    have := (n.shortcuts.handleOf?_isSome b.id).2 ⟨b', hb', hid⟩
    rw [hh] at this
    cases this

/-- A block that has no shortcut gets one, and nothing else changes. -/
theorem link_of_fresh {n : Network} {b : BlockRef} (hnew : ∀ b' ∈ n.shortcuts.blocks, b'.id ≠ b.id) :
    (n.link b).1 = { n with shortcuts := (n.shortcuts.push b).1 } := by
  unfold link
  cases hh : n.shortcuts.handleOf? b.id with
  | some h =>
    obtain ⟨b', hb', hid⟩ := (n.shortcuts.handleOf?_isSome b.id).1 (by rw [hh]; rfl)
    exact absurd hid (hnew b' hb')
  | none => rfl

theorem blocks_link_of_fresh {n : Network} (hn : n.shortcuts.WellFormed) {b : BlockRef}
    (hnew : ∀ b' ∈ n.shortcuts.blocks, b'.id ≠ b.id) :
    (n.link b).1.shortcuts.blocks = n.shortcuts.blocks ++ [b] := by
  rw [link_of_fresh hnew]
  exact Shortcuts.blocks_push hn b

theorem blocks_link_ne_nil {n : Network} (hn : n.shortcuts.WellFormed) (b : BlockRef) :
    (n.link b).1.shortcuts.blocks ≠ [] := by
  rcases blocks_link hn b with ⟨he, b', hb', -⟩ | ⟨he, -⟩
  · rw [he]; exact List.ne_nil_of_mem hb'
  · rw [he]; exact List.append_ne_nil_of_right_ne_nil _ (List.cons_ne_nil _ _)

theorem blocks_link_sublist {n : Network} (hn : n.shortcuts.WellFormed) (b : BlockRef) :
    (n.link b).1.shortcuts.blocks.Sublist (n.shortcuts.blocks ++ [b]) := by
  rcases blocks_link hn b with ⟨hsame, -⟩ | ⟨hnew, -⟩
  · rw [hsame]
    exact List.sublist_append_left _ _
  · rw [hnew]

theorem mem_blocks_link {n : Network} (hn : n.shortcuts.WellFormed) {b b' : BlockRef}
    (hb : b' ∈ (n.link b).1.shortcuts.blocks) : b' ∈ n.shortcuts.blocks ∨ b' = b := by
  have hmem := (blocks_link_sublist hn b).subset hb
  rwa [List.mem_append, List.mem_singleton] at hmem

theorem mem_blocks_link_of_mem {n : Network} (hn : n.shortcuts.WellFormed) (b : BlockRef)
    {b' : BlockRef} (hb : b' ∈ n.shortcuts.blocks) : b' ∈ (n.link b).1.shortcuts.blocks := by
  rcases blocks_link hn b with ⟨he, -⟩ | ⟨he, -⟩
  · rw [he]
    exact hb
  · rw [he]
    exact List.mem_append_left _ hb

/-- A block without a shortcut has the last one after it was linked. -/
theorem mem_blocks_link_iff {n : Network} (hn : n.shortcuts.WellFormed) {b : BlockRef}
    (hnew : ∀ b' ∈ n.shortcuts.blocks, b'.id ≠ b.id) (b' : BlockRef) :
    b' ∈ (n.link b).1.shortcuts.blocks ↔ b' ∈ n.shortcuts.blocks ∨ b' = b := by
  rw [blocks_link_of_fresh hn hnew, List.mem_append, List.mem_singleton]

theorem WellFormed.link {n : Network} (hn : n.WellFormed) (b : BlockRef) :
    (n.link b).1.WellFormed := by
  refine ⟨by rw [link_signals]; exact hn.signals, ?_, by rw [link_signals]; exact hn.identity, ?_⟩
  · unfold Network.link
    split
    · exact hn.shortcuts
    · exact hn.shortcuts.push b
  · rcases blocks_link hn.shortcuts b with ⟨he, -⟩ | ⟨he, hne⟩
    · rw [he]; exact hn.blocks
    · rw [he]
      exact nodup_map_append_singleton hn.blocks hne

section Lookup

variable {alive : Nat → Bool} {n : Network} (block device : String) (number : UInt32)

theorem blocks_lookup_sublist (hn : n.shortcuts.WellFormed) :
    (n.lookup alive block device number).1.shortcuts.blocks.Sublist n.shortcuts.blocks :=
  (Shortcuts.toList_lookup_sublist hn alive block device number).map Prod.snd

/-- A search among shortcuts to living blocks leaves the network as it is. -/
theorem lookup_of_living (halive : ∀ b ∈ n.shortcuts.blocks, alive b.id = true) :
    n.lookup alive block device number =
      (n, n.shortcuts.blocks.find? fun b => b.identity.isOf block device number) := by
  unfold lookup
  rw [Shortcuts.lookup_of_living halive]

theorem mem_blocks_lookup_of_alive (hn : n.shortcuts.WellFormed) {b : BlockRef}
    (hb : b ∈ n.shortcuts.blocks) (ha : alive b.id = true) :
    b ∈ (n.lookup alive block device number).1.shortcuts.blocks := by
  obtain ⟨e, he, rfl⟩ := List.mem_map.1 hb
  exact List.mem_map_of_mem (Shortcuts.mem_toList_lookup hn block device number he ha)

variable (alive) in
theorem WellFormed.lookup (hn : n.WellFormed) : (n.lookup alive block device number).1.WellFormed where
  signals := hn.signals
  shortcuts := hn.shortcuts.lookup alive block device number
  identity := hn.identity
  blocks := hn.blocks.sublist ((blocks_lookup_sublist block device number hn.shortcuts).map _)

end Lookup

/-! ### Registration and teardown -/

section Register

variable {alive : Nat → Bool} {n : Network} {info : BlockRef} {signals : List (Signal × Option Nat)}

@[simp] theorem register_name : (Registry.register alive n info signals).1.name = n.name := by
  obtain ⟨added, ha⟩ := n.putSignals_eq signals
  unfold Registry.register
  simp only [ha]
  split
  · rfl
  · rw [link_name]; rfl

theorem register_signals : (Registry.register alive n info signals).1.signals =
    (Registry.putSignals n signals).1.signals := by
  unfold Registry.register
  simp only
  split
  · rfl
  · exact link_signals _ info

@[simp] theorem register_phase : (Registry.register alive n info signals).1.phase = .active := rfl

theorem WellFormed.register (hn : n.WellFormed) :
    (Registry.register alive n info signals).1.WellFormed := by
  have hl := (hn.putSignals signals).lookup alive info.identity.block.text
    info.identity.device.text info.identity.number
  -- The phase is in no table.
  suffices h : ∀ m : Network, m.WellFormed → ({ m with phase := .active } : Network).WellFormed by
    unfold Registry.register
    refine h _ ?_
    split
    · exact hl
    · exact hl.link info
  exact fun m hm => ⟨hm.signals, hm.shortcuts, hm.identity, hm.blocks⟩

/-- A registration adds the block of the device to the shortcuts or nothing. -/
theorem blocks_register_sublist (hn : n.WellFormed) :
    (Registry.register alive n info signals).1.shortcuts.blocks.Sublist
      (n.shortcuts.blocks ++ [info]) := by
  obtain ⟨added, ha⟩ := n.putSignals_eq signals
  have hp := hn.putSignals signals
  have hl := (hp.lookup alive info.identity.block.text info.identity.device.text
    info.identity.number).shortcuts
  have hsub : ((Registry.putSignals n signals).1.lookup alive info.identity.block.text
      info.identity.device.text info.identity.number).1.shortcuts.blocks.Sublist
      n.shortcuts.blocks := by
    have hfound := @blocks_lookup_sublist alive (Registry.putSignals n signals).1
      info.identity.block.text info.identity.device.text info.identity.number hp.shortcuts
    rw [ha] at hfound ⊢
    exact hfound
  unfold Registry.register
  simp only
  split
  · exact hsub.trans (List.sublist_append_left _ _)
  · exact (blocks_link_sublist hl info).trans (hsub.append_right _)

theorem mem_blocks_register (hn : n.WellFormed) {b : BlockRef}
    (hb : b ∈ (Registry.register alive n info signals).1.shortcuts.blocks) :
    b ∈ n.shortcuts.blocks ∨ b = info := by
  have hmem := (blocks_register_sublist hn).subset hb
  rwa [List.mem_append, List.mem_singleton] at hmem

/-- A registration keeps the shortcuts to living blocks, and adds one to its own
block unless there is one to a block of the same name, device and number. -/
theorem mem_blocks_register_iff (hn : n.WellFormed)
    (halive : ∀ b ∈ n.shortcuts.blocks, alive b.id = true)
    (hnew : ∀ b ∈ n.shortcuts.blocks, b.id ≠ info.id) (b : BlockRef) :
    b ∈ (Registry.register alive n info signals).1.shortcuts.blocks ↔
      b ∈ n.shortcuts.blocks ∨ b = info ∧ ∀ b' ∈ n.shortcuts.blocks,
        b'.identity.isOf info.identity.block.text info.identity.device.text
          info.identity.number = false := by
  obtain ⟨added, ha⟩ := n.putSignals_eq signals
  have hsame : (Registry.putSignals n signals).1.shortcuts = n.shortcuts := by rw [ha]
  have hlookup := lookup_of_living (n := (Registry.putSignals n signals).1)
    info.identity.block.text info.identity.device.text info.identity.number (hsame ▸ halive)
  unfold Registry.register
  simp only [hlookup, hsame]
  split
  · rename_i hfound
    obtain ⟨found, hmem, hof⟩ := List.find?_isSome.1 hfound
    rw [hsame]
    refine (or_iff_left ?_).symm
    rintro ⟨-, hnone⟩
    rw [hnone found hmem] at hof
    cases hof
  · rename_i hnone
    rw [List.find?_isSome] at hnone
    refine (mem_blocks_link_iff (hn.putSignals signals).shortcuts (hsame ▸ hnew) b).trans ?_
    rw [hsame]
    refine or_congr_right (and_iff_left fun b' hb' => ?_).symm
    exact Bool.eq_false_of_not_eq_true fun hof => hnone ⟨b', hb', hof⟩

/-- A network has a shortcut after a registration. -/
theorem blocks_register_ne_nil (hn : n.WellFormed) :
    (Registry.register alive n info signals).1.shortcuts.blocks ≠ [] := by
  have hp := (hn.putSignals signals).shortcuts
  have hl := ((hn.putSignals signals).lookup alive info.identity.block.text
    info.identity.device.text info.identity.number).shortcuts
  unfold Registry.register
  simp only
  split
  · rename_i hs
    obtain ⟨b, hb⟩ := Option.isSome_iff_exists.1 hs
    obtain ⟨hm, ha, -⟩ := Shortcuts.lookup_eq_some hb
    exact List.ne_nil_of_mem (mem_blocks_lookup_of_alive _ _ _ hp hm ha)
  · exact blocks_link_ne_nil hl info

end Register

section Forget

variable {alive : Nat → Bool} {n : Network} {block : BlockRef}

theorem forget_fst : (n.forget alive block).1 = { n with
    signals := (n.signals.eraseWhere fun s => s.liesIn block.identity.block.text
      block.identity.device.text block.identity.number).1
    shortcuts := (n.shortcuts.purge alive (some block.id)).1 } := rfl

@[simp] theorem forget_name : (n.forget alive block).1.name = n.name := rfl

@[simp] theorem forget_phase : (n.forget alive block).1.phase = n.phase := rfl

theorem mem_blocks_forget (hn : n.shortcuts.WellFormed) (b : BlockRef) :
    b ∈ (n.forget alive block).1.shortcuts.blocks ↔
      b ∈ n.shortcuts.blocks ∧ alive b.id = true ∧ b.id ≠ block.id := by
  refine (Shortcuts.mem_blocks_purge hn alive (some block.id) b).trans ?_
  simp only [ne_eq, Option.some_inj, eq_comm (a := block.id)]

/-- The signals of other blocks stay in their order, under their handles. -/
theorem signals_forget (hn : n.signals.WellFormed) : (n.forget alive block).1.signals.toList =
    n.signals.toList.filter fun e => !e.2.liesIn block.identity.block.text
      block.identity.device.text block.identity.number := by
  rw [forget_fst]
  exact Index.toList_eraseWhere hn _

theorem items_forget (hn : n.signals.WellFormed) : (n.forget alive block).1.signals.items =
    n.signals.items.filter fun s => !s.liesIn block.identity.block.text
      block.identity.device.text block.identity.number := by
  unfold Index.items
  rw [signals_forget hn, List.filter_map]
  rfl

/-- If no block is gone, the shortcuts to other blocks stay in their order. -/
theorem shortcuts_forget (hn : n.shortcuts.WellFormed)
    (halive : ∀ b ∈ n.shortcuts.blocks, alive b.id = true) :
    (n.forget alive block).1.shortcuts.toList =
      n.shortcuts.toList.filter fun e => e.2.id != block.id := by
  rw [forget_fst]
  refine (Shortcuts.toList_purge hn alive (some block.id)).trans ?_
  refine List.filter_congr fun e he => ?_
  rw [halive e.2 (List.mem_map_of_mem he), Bool.true_and, Bool.eq_iff_iff, bne_iff_ne, bne_iff_ne,
    ne_eq, ne_eq, Option.some_inj, eq_comm]

/-- The signals that stay are those of other blocks. -/
theorem get?_forget (hn : n.signals.WellFormed) (k : Handle) :
    (n.forget alive block).1.signals.get? k = (n.signals.get? k).filter fun s =>
      !s.liesIn block.identity.block.text block.identity.device.text block.identity.number := by
  rw [forget_fst]
  exact Index.get?_eraseWhere hn _ k

theorem blocks_forget_sublist (hn : n.shortcuts.WellFormed) :
    (n.forget alive block).1.shortcuts.blocks.Sublist n.shortcuts.blocks := by
  refine List.Sublist.map Prod.snd ?_
  show (n.shortcuts.purge alive (some block.id)).1.toList.Sublist _
  rw [Shortcuts.toList_purge hn]
  exact List.filter_sublist

theorem WellFormed.forget (hn : n.WellFormed) : (n.forget alive block).1.WellFormed where
  signals := by
    rw [forget_fst]
    exact hn.signals.eraseWhere _
  shortcuts := hn.shortcuts.purge alive _
  identity := by
    refine hn.identity.mono fun k y hy => ⟨y, ?_, rfl⟩
    rw [get?_forget hn.signals] at hy
    exact (Option.filter_eq_some_iff.1 hy).1
  blocks := hn.blocks.sublist ((blocks_forget_sublist hn.shortcuts).map _)

end Forget

end Network
end SignalRegistry
