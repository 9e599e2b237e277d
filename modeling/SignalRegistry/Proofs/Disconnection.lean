/-
# When a network disconnects

A network disconnects when the block of its only shortcut goes, and at no other
time (`Site.disconnects_iff`). This is its last block exactly if every block of
the network that the hub holds has a shortcut. If one has none, the network can
be made to disconnect before its last block by letting the others go
(`Site.exists_early_iff`). In a run in which every block of the network that
comes is welcome, there is no such block.

A block of data that comes before the first device of its network is not
welcome (`Site.early_farewell`).

Key definitions: `Site.Disconnects`, `Site.DisconnectsEarly`.
Key theorems: `Site.disconnects_iff`, `Site.blocks_left_iff`,
`Site.exists_early_iff`, `Site.disconnected_last_iff`.
-/
import SignalRegistry.Proofs.Addressing
import SignalRegistry.Proofs.Links

namespace SignalRegistry

open Registry (Notice greeting farewell deviceNotice)

/-- The notice that the network of a name has gone is among the notices. -/
def HasFarewell (name : NetworkName) (notices : List Notice) : Prop :=
  ∃ n?, ({ kind := .networkDisconnected, network := name }, n?) ∈ notices

theorem not_hasFarewell_nil {name : NetworkName} : ¬ HasFarewell name [] := by
  rintro ⟨n?, hmem⟩
  cases hmem

namespace Hub

variable {config : Config} {hub : Hub} {alive : Nat → Bool} {memory : Memory} {block : BlockRef}
  {name : NetworkName}

theorem not_hasFarewell_blockNotice (kind : Event.Kind) (i : BlockIdentity)
    (hk : kind ≠ .networkDisconnected) : ¬ HasFarewell name [hub.blockNotice kind i] := by
  rintro ⟨n?, hmem⟩
  have hevent := congrArg (fun notice : Notice => notice.1.kind) (List.mem_singleton.1 hmem)
  exact hk hevent.symm

/-- An event of a block is of its kind. -/
theorem ne_ofBlock {kind kind' : Event.Kind} (hk : kind ≠ kind') (network : NetworkName)
    (i : BlockIdentity) : ({ kind := kind, network := network } : Event) ≠ .ofBlock kind' i :=
  fun h => hk (congrArg Event.kind h)

/-- Of what is notified of a block that its network forgets, the network is
said to go if the notice is there. -/
theorem hasFarewell_forgotten_iff {n m : Network} (hname : m.name = block.identity.network)
    {p : Prop} [Decidable p] :
    HasFarewell name (hub.blockNotice .memoryBlockDeleted block.identity ::
      ((if block.identity.holdsTable then [deviceNotice .deviceDisconnected block.identity n]
        else []) ++ if p then [farewell m] else [])) ↔ p ∧ block.identity.network = name := by
  unfold HasFarewell
  by_cases hgoes : p
  · rw [if_pos hgoes]
    by_cases hkind : block.identity.holdsTable = true
    · simp [blockNotice, deviceNotice, ne_ofBlock, farewell, hkind, hgoes, hname,
        eq_comm (a := name)]
    · simp [blockNotice, ne_ofBlock, farewell, hkind, hgoes, hname,
        eq_comm (a := name)]
  · rw [if_neg hgoes]
    by_cases hkind : block.identity.holdsTable = true
    · simp [blockNotice, deviceNotice, ne_ofBlock, hkind, hgoes]
    · simp [blockNotice, ne_ofBlock, hkind, hgoes]

/-- No network is said to go when a block comes. -/
theorem Arrival.not_hasFarewell {out : Hub × Memory × Except Error Unit × Journal}
    (ha : Arrival alive hub memory block out) : ¬ HasFarewell name out.2.2.2.notices := by
  rintro ⟨n?, hmem⟩
  cases ha with
  | known held => cases hmem
  | data new kind updates notices =>
    exact not_hasFarewell_blockNotice _ _ Event.Kind.noConfusion ⟨n?, notices ▸ hmem⟩
  | rejected new kind reason notices =>
    exact not_hasFarewell_blockNotice _ _ Event.Kind.noConfusion ⟨n?, notices ▸ hmem⟩
  | @registered new kind layouts n m r grown result journal table before after updates growth notices =>
    rw [notices] at hmem
    by_cases hphase : n.phase = .active
    · simp [blockNotice, deviceNotice, ne_ofBlock, hphase] at hmem
    · simp [blockNotice, deviceNotice, ne_ofBlock, greeting, hphase] at hmem

/-- The shortcuts of an active network lead to one block only, if none is left
without it. -/
theorem Sound.blocks_eq_singleton (hs : hub.Sound config)
    (halive : ∀ b ∈ hub.blocks, alive b.id = true) (held : block ∈ hub.blocks) {n : Network}
    (hn : hub.registry.named? block.identity.network.text = some n) (hphase : n.phase = .active) :
    (n.forget alive block).1.shortcuts.isEmpty = true ↔ n.shortcuts.blocks = [block] := by
  obtain ⟨h, hg, -⟩ := (Registry.named?_eq_some_iff hs.registry).1 hn
  have hwf := hs.registry.each h n hg
  have hlinked := (hs.settled h n hg).linked
  rw [hwf.forget.shortcuts.isEmpty_iff, List.eq_nil_iff_forall_not_mem]
  constructor
  · intro hnone
    have hall : ∀ b ∈ n.shortcuts.blocks, b = block := by
      intro b hb
      by_contra hne
      have hid : b.id ≠ block.id := fun hid =>
        hne (hs.eq_of_id (hlinked b hb).1 held hid)
      refine hnone b ((Network.mem_blocks_forget hwf.shortcuts b).2 ⟨hb, ?_, hid⟩)
      exact halive b (hlinked b hb).1
    obtain ⟨first, rest, hsplit⟩ :=
      List.exists_cons_of_ne_nil ((hs.settled h n hg).blocks_ne_nil hphase)
    have hnodup := hwf.blocks.of_map
    rw [hsplit] at hall hnodup ⊢
    obtain rfl := hall first List.mem_cons_self
    have hrest : rest = [] := by
      rw [List.eq_nil_iff_forall_not_mem]
      intro b hb
      rw [hall b (List.mem_cons_of_mem _ hb)] at hb
      exact (List.nodup_cons.1 hnodup).1 hb
    rw [hrest]
  · intro hone b hb
    obtain ⟨hmem, -, hid⟩ := (Network.mem_blocks_forget hwf.shortcuts b).1 hb
    rw [hone, List.mem_singleton] at hmem
    exact hid (congrArg BlockRef.id hmem)

/-- When a block goes, the network of a name is said to go exactly if it is
active and this was the only block with a shortcut. -/
theorem Departure.hasFarewell_iff {out : Hub × Except Error Unit × Journal}
    (hd : Departure alive hub block.id out) (hs : hub.Sound config)
    (halive : ∀ b ∈ hub.blocks, alive b.id = true) (held : block ∈ hub.blocks) :
    HasFarewell name out.2.2.notices ↔ block.identity.network = name ∧
      ∃ n, hub.registry.named? name.text = some n ∧ n.phase = .active ∧
        n.shortcuts.blocks = [block] := by
  cases hd with
  | unknown absent => exact absurd rfl (id_ne_of_not_holds absent held)
  | @alone gone hgone is absent journal notices =>
    obtain rfl := hs.eq_of_id hgone held is
    refine iff_of_false ?_ ?_
    · rw [notices]
      exact not_hasFarewell_blockNotice _ _ Event.Kind.noConfusion
    · rintro ⟨rfl, n, hn, -⟩
      rw [absent] at hn
      cases hn
  | @forgotten gone hgone is n before r journal updates notices =>
    obtain rfl := hs.eq_of_id hgone held is
    have hname : (n.forget alive gone).1.name = gone.identity.network := by
      rw [Network.forget_name]
      exact Name.ext (Registry.name_of_named? hs.registry before)
    have hlast := fun hphase => hs.blocks_eq_singleton halive held before hphase
    rw [notices, hasFarewell_forgotten_iff hname]
    constructor
    · rintro ⟨⟨hphase, hempty⟩, rfl⟩
      exact ⟨rfl, n, before, hphase, (hlast hphase).1 hempty⟩
    · rintro ⟨rfl, m, hm, hphase, hone⟩
      rw [before, Option.some_inj] at hm
      subst hm
      exact ⟨⟨hphase, (hlast hphase).2 hone⟩, rfl⟩

/-- A network that is active stays active when a block comes. -/
theorem Arrival.active {out : Hub × Memory × Except Error Unit × Journal}
    (ha : Arrival alive hub memory block out) {name : String}
    (hactive : hub.registry.active name = true) : out.1.registry.active name = true := by
  cases ha with
  | known held => exact hactive
  | data new kind updates notices =>
    by_cases hname : name = block.identity.network.text
    · subst hname
      unfold Registry.active at hactive ⊢
      rw [updates.named, if_pos rfl, Option.any_map]
      simpa only [Function.comp_def, Network.link_phase] using hactive
    · rw [updates.active_of_ne hname, hactive]
  | rejected new kind reason notices => exact hactive
  | registered new kind table before after updates growth notices =>
    by_cases hname : name = block.identity.network.text
    · subst hname
      have hphase := Registry.active_of_named? (updates.named _ |>.trans (if_pos rfl))
      rw [hphase, after, Network.register_phase]
      rfl
    · rw [updates.active_of_ne hname, hactive]

/-- A network stays active when a block goes unless it is said to go. -/
theorem Departure.active_iff {id : Nat} {out : Hub × Except Error Unit × Journal}
    (hd : Departure alive hub id out) (hr : hub.registry.WellFormed) (name : NetworkName) :
    out.1.registry.active name.text = true ↔
      hub.registry.active name.text = true ∧ ¬ HasFarewell name out.2.2.notices := by
  cases hd with
  | unknown absent => exact (and_iff_left not_hasFarewell_nil).symm
  | alone held is absent notices =>
    refine (and_iff_left ?_).symm
    rw [notices]
    exact not_hasFarewell_blockNotice _ _ Event.Kind.noConfusion
  | @forgotten block held is n before r journal updates notices =>
    have hname : (n.forget alive block).1.name = block.identity.network := by
      rw [Network.forget_name]
      exact Name.ext (Registry.name_of_named? hr before)
    rw [notices, hasFarewell_forgotten_iff hname]
    by_cases hnet : name = block.identity.network
    · subst hnet
      have hafter : r.active block.identity.network.text =
          (hub.registry.afterForget alive block n).any fun m => decide (m.phase = .active) := by
        unfold Registry.active
        rw [updates.named, if_pos rfl]
      rw [hafter, Registry.active_of_named? before]
      unfold Registry.afterForget
      cases he : (n.forget alive block).1.shortcuts.isEmpty with
      | true => simp [he, Registry.any_leftOver]
      | false =>
        simp only [he, Bool.false_eq_true, if_false, Option.any_some, and_false, not_false_iff,
          and_true]
        exact Iff.rfl
    · rw [updates.active_of_ne fun htext => hnet (Name.ext htext)]
      exact (and_iff_left fun hgoes => hnet hgoes.2.symm).symm

/-- Resolving a selector makes no network active, and none inactive. -/
theorem Sound.active_resolve (hs : hub.Sound config)
    (halive : ∀ b ∈ hub.blocks, alive b.id = true) (ids : Selector) (name : String) :
    (hub.resolve alive memory ids).1.registry.active name = hub.registry.active name := by
  cases hs.resolves halive memory ids with
  | same eq => rw [eq]
  | @links h n b network named fresh updates eq =>
    rw [eq]
    by_cases hnet : name = n.name.text
    · subst hnet
      have hn := (Registry.named?_eq_some_iff hs.registry).2 ⟨h, network, rfl⟩
      have hafter := (updates.named n.name.text).trans (if_pos rfl)
      rw [Registry.active_of_named? hn, Registry.active_of_named? hafter, Network.link_phase]
    · exact updates.active_of_ne hnet

end Hub

namespace Site

variable {config : Config} {s : Site} {a : Action} {name : NetworkName}

/-- The network of a name is said to go while an action is done. -/
def Disconnects (s : Site) (a : Action) (name : NetworkName) : Prop :=
  HasFarewell name (s.hears a)

/-- The network of a name is said to go although a block of it is left. -/
def DisconnectsEarly (s : Site) (a : Action) (name : NetworkName) : Prop :=
  s.Disconnects a name ∧ ∃ b ∈ (s.act a).hub.blocks, b.identity.network = name

theorem disconnects_depart_iff (hs : s.hub.Sound config) {block : BlockRef}
    (held : block ∈ s.hub.blocks) (name : NetworkName) : s.Disconnects (.depart block.id) name ↔
      block.identity.network = name ∧ ∃ n, s.hub.registry.named? name.text = some n ∧
        n.phase = .active ∧ n.shortcuts.blocks = [block] := by
  unfold Disconnects
  rw [s.hears_depart]
  exact (Hub.departure hs.registry s.isAlive block.id).hasFarewell_iff hs
    (fun b => s.isAlive_of_mem) held

/-- A network disconnects when the block of its only shortcut goes. -/
theorem disconnects_iff (hs : s.hub.Sound config) : s.Disconnects a name ↔
    ∃ block ∈ s.hub.blocks, a = .depart block.id ∧ block.identity.network = name ∧
      ∃ n, s.hub.registry.named? name.text = some n ∧ n.phase = .active ∧
        n.shortcuts.blocks = [block] := by
  constructor
  · intro hd
    -- Nothing is said to go but with a block that goes.
    obtain ⟨id, rfl, held⟩ : ∃ id, a = .depart id ∧ s.hub.holds id = true := by
      unfold Disconnects at hd
      cases effect hs a with
      | arrived is href arrival hub hears =>
        rw [hears] at hd
        exact absurd hd arrival.not_hasFarewell
      | @departed id is out departure hub hears =>
        refine ⟨id, is, ?_⟩
        rw [hears] at hd
        by_contra habsent
        cases departure with
        | unknown absent =>
          obtain ⟨n?, hmem⟩ := hd
          cases hmem
        | alone held is absent notices => exact habsent ((s.hub.holds_iff id).2 ⟨_, held, is⟩)
        | forgotten held is before updates notices =>
          exact habsent ((s.hub.holds_iff id).2 ⟨_, held, is⟩)
      | resolved ids hub hears =>
        rw [hears] at hd
        obtain ⟨n?, hmem⟩ := hd
        cases hmem
      | ended is hub hears =>
        rw [hears] at hd
        obtain ⟨n?, hmem⟩ := hd
        cases hmem
      | idle hub hears =>
        rw [hears] at hd
        obtain ⟨n?, hmem⟩ := hd
        cases hmem
    obtain ⟨block, hmem, rfl⟩ := (s.hub.holds_iff id).1 held
    exact ⟨block, hmem, rfl, (disconnects_depart_iff hs hmem name).1 hd⟩
  · rintro ⟨block, hmem, rfl, hrest⟩
    exact (disconnects_depart_iff hs hmem name).2 hrest

/-- When a network disconnects, no block of it is left exactly if all its
blocks had a shortcut. -/
theorem blocks_left_iff (hs : s.hub.Sound config) (hd : s.Disconnects a name) :
    (∀ b ∈ (s.act a).hub.blocks, b.identity.network ≠ name) ↔ s.hub.LinksAll name := by
  obtain ⟨block, held, rfl, hnet, n, hn, -, hone⟩ := (disconnects_iff hs).1 hd
  have hmem : ∀ b, b ∈ (s.act (.depart block.id)).hub.blocks ↔
      b ∈ s.hub.blocks ∧ b.id ≠ block.id := fun b => mem_blocks_depart_iff hs block.id
  have hlinks : ∀ b, s.hub.registry.Links b ∧ b.identity.network = name ↔ b = block := by
    intro b
    have hiff := hs.mem_named_iff_links hn b
    rw [hone, List.mem_singleton, ← Name.ext_iff] at hiff
    exact hiff.symm
  constructor
  · intro hnone b hb hb'
    have hid : b.id = block.id := by
      by_contra hid
      exact hnone b ((hmem b).2 ⟨hb, hid⟩) hb'
    have he : b = block := hs.eq_of_id hb held hid
    exact ((hlinks b).2 he).1
  · intro hall b hb hb'
    obtain ⟨hb, hid⟩ := (hmem b).1 hb
    have he : b = block := (hlinks b).1 ⟨hall b hb hb', hb'⟩
    exact hid (congrArg BlockRef.id he)

/-- A network disconnects exactly when it is active no longer, unless the hub is
shut down. -/
theorem disconnects_iff_active (hs : s.hub.Sound config) (ha : a ≠ .shutDown) :
    s.Disconnects a name ↔ s.hub.registry.active name.text = true ∧
      (s.act a).hub.registry.active name.text = false := by
  have halive : ∀ b ∈ s.hub.blocks, s.isAlive b.id = true := fun b => s.isAlive_of_mem
  -- An active network stays so, if nothing is said.
  have hquiet : ((s.hub.registry.active name.text = true →
      (s.act a).hub.registry.active name.text = true)) → ¬ s.Disconnects a name →
      (s.Disconnects a name ↔ s.hub.registry.active name.text = true ∧
        (s.act a).hub.registry.active name.text = false) := by
    intro hstays hd
    refine iff_of_false hd ?_
    rintro ⟨hbefore, hafter⟩
    rw [hstays hbefore] at hafter
    cases hafter
  cases effect hs a with
  | arrived is href arrival hub hears =>
    refine hquiet (fun hbefore => ?_) ?_
    · rw [hub]
      exact arrival.active hbefore
    · unfold Disconnects
      rw [hears]
      exact arrival.not_hasFarewell
  | @departed id is out departure hub hears =>
    have hiff := departure.active_iff hs.registry name
    have hbefore : s.Disconnects a name → s.hub.registry.active name.text = true := by
      intro hd
      obtain ⟨-, -, -, -, n, hn, hphase, -⟩ := (disconnects_iff hs).1 hd
      rw [Registry.active_of_named? hn, hphase]
      rfl
    rw [← hub] at hiff
    have hheard : HasFarewell name out.2.2.notices ↔ s.Disconnects a name := by
      unfold Disconnects
      rw [hears]
    rw [hheard] at hiff
    rw [← Bool.not_eq_true, hiff]
    tauto
  | resolved ids hub hears =>
    refine hquiet (fun hbefore => ?_) ?_
    · rw [hub, hs.active_resolve halive, hbefore]
    · unfold Disconnects
      rw [hears]
      exact not_hasFarewell_nil
  | ended is hub hears => exact absurd is ha
  | idle hub hears =>
    refine hquiet (fun hbefore => ?_) ?_
    · rw [hub, hbefore]
    · unfold Disconnects
      rw [hears]
      exact not_hasFarewell_nil

/-! ### Blocks that go one by one -/

theorem active_of_departs (hs : s.hub.Sound config) (ids : List Nat)
    (hactive : (s.run (ids.map .depart)).hub.registry.active name.text = true) :
    s.hub.registry.active name.text = true := by
  induction ids generalizing s with
  | nil => exact hactive
  | cons id ids ih =>
    have hstep : (s.act (.depart id)).hub.registry.active name.text = true :=
      ih (sound_act hs (.depart id)) hactive
    rw [hub_act_depart] at hstep
    exact (((Hub.departure hs.registry s.isAlive id).active_iff hs.registry name).1 hstep).1

/-- Departures bring no block. -/
theorem linksAll_departs (hs : s.hub.Sound config) (hl : s.hub.LinksAll name) (ids : List Nat) :
    (s.run (ids.map .depart)).hub.LinksAll name := by
  refine linksAll_run hs hl _ (throughout_of_forall (fun s a ha ref hadmits => ?_) s)
  obtain ⟨id, rfl, -⟩ := hadmits
  obtain ⟨gone, -, hgone⟩ := List.mem_map.1 ha
  cases hgone

theorem length_blocks_depart (s : Site) {b : BlockRef} (hb : b ∈ s.hub.blocks) :
    (s.act (.depart b.id)).hub.blocks.length = s.hub.blocks.length - 1 := by
  rw [hub_act_depart, Hub.blocks_depart]
  exact List.length_eraseP_of_mem hb (beq_self_eq_true b.id)

theorem links_depart_iff (hs : s.hub.Sound config) (id : Nat) (b : BlockRef) :
    (s.act (.depart id)).hub.registry.Links b ↔ s.hub.registry.Links b ∧ b.id ≠ id := by
  rw [hub_act_depart]
  exact (Hub.departure hs.registry s.isAlive id).links_iff hs (fun b => s.isAlive_of_mem) b

/-- An active network with a block without a shortcut disconnects early, if the
blocks with a shortcut go one after the other. By induction on the number of
blocks. -/
theorem exists_early_of_unlinked (hs : s.hub.Sound config)
    (hactive : s.hub.registry.active name.text = true) {b : BlockRef} (hb : b ∈ s.hub.blocks)
    (hnet : b.identity.network = name) (hl : ¬ s.hub.registry.Links b) :
    ∃ (ids : List Nat) (id : Nat), (s.run (ids.map .depart)).DisconnectsEarly (.depart id) name := by
  obtain ⟨k, hk⟩ : ∃ k, s.hub.blocks.length = k := ⟨_, rfl⟩
  induction k generalizing s with
  | zero =>
    rw [List.length_eq_zero_iff.1 hk] at hb
    exact absurd hb List.not_mem_nil
  | succ k ih =>
    obtain ⟨n, hn, hphase⟩ := (Registry.active_iff s.hub.registry name.text).1 hactive
    obtain ⟨h, hg, -⟩ := (Registry.named?_eq_some_iff hs.registry).1 hn
    obtain ⟨first, hmem⟩ :=
      List.exists_mem_of_ne_nil _ ((hs.settled h n hg).blocks_ne_nil hphase)
    obtain ⟨hfirst, hname⟩ := (hs.mem_named_iff_links hn first).1 hmem
    have held := hs.mem_of_links hfirst
    have hother : b.id ≠ first.id := by
      intro hid
      rw [hs.eq_of_id hb held hid] at hl
      exact hl hfirst
    have hkept := (mem_blocks_depart_iff hs first.id).2 ⟨hb, hother⟩
    have hiff := disconnects_depart_iff hs held name
    by_cases hone : n.shortcuts.blocks = [first]
    · exact ⟨[], first.id, hiff.2 ⟨Name.ext hname, n, hn, hphase, hone⟩, b, hkept, hnet⟩
    · have hquiet : ¬ s.Disconnects (.depart first.id) name := by
        intro hd
        obtain ⟨-, m, hm, -, hm'⟩ := hiff.1 hd
        rw [hn, Option.some_inj] at hm
        exact hone (hm ▸ hm')
      have hactive' : (s.act (.depart first.id)).hub.registry.active name.text = true := by
        rw [← Bool.not_eq_false]
        intro hinactive
        exact hquiet ((disconnects_iff_active hs Action.noConfusion).2 ⟨hactive, hinactive⟩)
      have hl' : ¬ (s.act (.depart first.id)).hub.registry.Links b :=
        fun hl' => hl ((links_depart_iff hs first.id b).1 hl').1
      have hlen := s.length_blocks_depart held
      obtain ⟨ids, id, hearly⟩ :=
        ih (sound_act hs _) hactive' hkept hl' (by omega)
      exact ⟨first.id :: ids, id, hearly⟩

/-- Departures can make a network disconnect early exactly if it is active and
has a block without a shortcut. -/
theorem exists_early_iff (hs : s.hub.Sound config) :
    (∃ (ids : List Nat) (id : Nat),
      (s.run (ids.map .depart)).DisconnectsEarly (.depart id) name) ↔
    s.hub.registry.active name.text = true ∧ ¬ s.hub.LinksAll name := by
  constructor
  · rintro ⟨ids, id, hd, b, hb, hnet⟩
    have hs' := sound_run hs (ids.map Action.depart)
    constructor
    · exact active_of_departs hs ids ((disconnects_iff_active hs' Action.noConfusion).1 hd).1
    · intro hall
      exact (blocks_left_iff hs' hd).2 (linksAll_departs hs hall ids) b hb hnet
  · rintro ⟨hactive, hall⟩
    obtain ⟨b, hb, hnet, hl⟩ : ∃ b ∈ s.hub.blocks, b.identity.network = name ∧
        ¬ s.hub.registry.Links b := by
      unfold Hub.LinksAll at hall
      push Not at hall
      exact hall
    exact exists_early_of_unlinked hs hactive hb hnet hl

/-! ### Networks after a run -/

/-- **A network disconnects with its last shortcut.** After every run, it
disconnects when the block of its only shortcut goes and at no other time, which
is when it is active no longer. Then no block of it is left exactly if all its
blocks had a shortcut; and departures can make it disconnect before its last
block exactly if it is active with a block that has none. There is no such block
if every block of the network was welcome when it came. -/
theorem disconnected_last_iff (config : Config) (actions : List Action) (name : NetworkName) :
    let s := (ofConfig config).run actions
    (∀ a, s.Disconnects a name ↔ ∃ block ∈ s.hub.blocks, a = .depart block.id ∧
      block.identity.network = name ∧ ∃ n, s.hub.registry.named? name.text = some n ∧
        n.phase = .active ∧ n.shortcuts.blocks = [block]) ∧
    (∀ a, a ≠ .shutDown → (s.Disconnects a name ↔ s.hub.registry.active name.text = true ∧
      (s.act a).hub.registry.active name.text = false)) ∧
    (∀ a, s.Disconnects a name →
      ((∀ b ∈ (s.act a).hub.blocks, b.identity.network ≠ name) ↔ s.hub.LinksAll name)) ∧
    ((∃ (ids : List Nat) (id : Nat),
      (s.run (ids.map .depart)).DisconnectsEarly (.depart id) name) ↔
        s.hub.registry.active name.text = true ∧ ¬ s.hub.LinksAll name) ∧
    (Throughout (fun s a => ∀ ref, s.Admits a ref → ref.identity.network = name →
      s.hub.Welcomes s.memory ref) (ofConfig config) actions → s.hub.LinksAll name) := by
  intro s
  have hstart : (ofConfig config).hub.Sound config := Hub.sound_ofConfig config
  have hs : s.hub.Sound config := sound_run hstart actions
  refine ⟨fun a => disconnects_iff hs, fun a ha => disconnects_iff_active hs ha,
    fun a hd => blocks_left_iff hs hd, exists_early_iff hs, ?_⟩
  exact linksAll_run hstart (fun b hb => absurd hb List.not_mem_nil) actions

/-- The table of a device arrives, and then a block of data. -/
def tableFirst : List Action :=
  [.publish (infoBlock "gina" 1), .publish (dataBlock "gina" 1), .arrive 0, .arrive 1]

/-- The blocks that have a shortcut in the network of a name. -/
def linkedIn (s : Site) (name : String) : Option (List BlockRef) :=
  (s.hub.registry.named? name).map fun n => n.shortcuts.blocks

theorem links_of_linkedIn {blocks : List BlockRef} {b : BlockRef}
    (hl : s.linkedIn b.identity.network.text = some blocks) (hb : b ∈ blocks) :
    s.hub.registry.Links b := by
  obtain ⟨n, hn, rfl⟩ := Option.map_eq_some_iff.1 hl
  exact ⟨n, hn, hb⟩

/-- When both blocks have come, both have a shortcut. -/
theorem run_tableFirst :
    ((ofConfig .default).run tableFirst).hub.blocks =
      [⟨0, (infoBlock "gina" 1).identity⟩, ⟨1, (dataBlock "gina" 1).identity⟩] ∧
    ((ofConfig .default).run tableFirst).linkedIn "n" =
      some [⟨0, (infoBlock "gina" 1).identity⟩, ⟨1, (dataBlock "gina" 1).identity⟩] ∧
    ((ofConfig .default).run tableFirst).held = [1, 0] := by decide +kernel

/-- Before the reports, the blocks are there, and the first gets its shortcut at once. -/
theorem reports_tableFirst :
    ((ofConfig .default).run (tableFirst.take 2)).memory.ref? 0 =
      some ⟨0, (infoBlock "gina" 1).identity⟩ ∧
    ((ofConfig .default).run (tableFirst.take 3)).memory.ref? 1 =
      some ⟨1, (dataBlock "gina" 1).identity⟩ ∧
    ((ofConfig .default).run (tableFirst.take 3)).linkedIn "n" =
      some [⟨0, (infoBlock "gina" 1).identity⟩] := by decide +kernel

/-- If the table of a device comes first, both its blocks are welcome, and its
network stays when either goes. -/
theorem disconnected_last_tableFirst :
    let s := (ofConfig .default).run tableFirst
    let name : NetworkName := .cut 24 "n"
    s.hub.LinksAll name ∧ ¬ s.Disconnects (.depart 0) name ∧ ¬ s.Disconnects (.depart 1) name := by
  have hstart : (ofConfig .default).hub.Sound .default := Hub.sound_ofConfig .default
  obtain ⟨-, hlinked, -⟩ := run_tableFirst
  obtain ⟨htable, hdata, hfirst⟩ := reports_tableFirst
  obtain ⟨hiff, -, -, -, hall⟩ := disconnected_last_iff .default tableFirst (.cut 24 "n")
  obtain ⟨n, hn, hblocks⟩ := Option.map_eq_some_iff.1 hlinked
  have hstays : ∀ id, ¬ ((ofConfig .default).run tableFirst).Disconnects (.depart id)
      (.cut 24 "n") := by
    intro id hd
    obtain ⟨block, -, -, -, m, hm, -, hone⟩ := (hiff _).1 hd
    rw [text_network, hn, Option.some_inj] at hm
    rw [hm, hone] at hblocks
    cases hblocks
  refine ⟨hall (throughout_of_getElem? fun k a hget ref hadmits _ => ?_), hstays 0, hstays 1⟩
  rw [← links_of_admits (sound_run hstart _) hadmits, ← run_concat]
  obtain ⟨id, rfl, href, -⟩ := hadmits
  have htake : tableFirst.take k ++ [.arrive id] = tableFirst.take (k + 1) := by
    rw [List.take_add_one, hget]
    rfl
  rw [htake]
  have hlen : k < tableFirst.length := (List.getElem?_eq_some_iff.1 hget).1
  -- The third action and the fourth are reports.
  have hk : k = 0 ∨ k = 1 ∨ k = 2 ∨ k = 3 := by
    simp only [tableFirst, List.length_cons, List.length_nil] at hlen
    omega
  rcases hk with rfl | rfl | rfl | rfl
  · cases hget
  · cases hget
  · cases hget
    rw [htable, Option.some_inj] at href
    subst href
    have hl := (congrArg (linkedIn _) text_network).trans hfirst
    exact links_of_linkedIn hl (List.mem_singleton_self _)
  · cases hget
    rw [hdata, Option.some_inj] at href
    subst href
    have hl := (congrArg (linkedIn _) text_network).trans hlinked
    exact links_of_linkedIn hl (List.mem_cons_of_mem _ (List.mem_singleton_self _))

/-- A block of data arrives, and then the table of its device. -/
def dataFirst : List Action :=
  [.publish (dataBlock "gina" 1), .publish (infoBlock "gina" 1), .arrive 0, .arrive 1]

/-- When the table goes, the network disconnects, and the data is left. -/
theorem depart_dataFirst :
    ((((ofConfig .default).run dataFirst).hears (.depart 1))[2]?).map Prod.fst =
      some { kind := .networkDisconnected, network := .cut 24 "n" } ∧
    (((ofConfig .default).run dataFirst).act (.depart 1)).hub.blocks =
      [⟨0, (dataBlock "gina" 1).identity⟩] := by decide +kernel

/-- Not every network that disconnects has lost its last block: if data arrives
before the table of its device, the network goes with the table, and the data
is left. -/
theorem early_farewell : ¬ ∀ (config : Config) (actions : List Action) (a : Action)
    (name : NetworkName), ((ofConfig config).run actions).Disconnects a name →
      ∀ b ∈ (((ofConfig config).run actions).act a).hub.blocks, b.identity.network ≠ name := by
  intro h
  obtain ⟨hhears, hblocks⟩ := depart_dataFirst
  have hd : ((ofConfig .default).run dataFirst).Disconnects (.depart 1) (.cut 24 "n") := by
    obtain ⟨notice, hnotice, hevent⟩ := Option.map_eq_some_iff.1 hhears
    refine ⟨notice.2, List.mem_of_getElem? (i := 2) ?_⟩
    rw [hnotice, ← hevent]
  refine h .default dataFirst (.depart 1) _ hd ⟨0, (dataBlock "gina" 1).identity⟩ ?_ rfl
  rw [hblocks]
  exact List.mem_singleton_self _

end Site
end SignalRegistry
