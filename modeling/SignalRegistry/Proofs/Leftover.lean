/-
# Signals that are left when their device has gone

A signal is in the table of its network from the moment a device's table places
it there. It goes when its block goes, when another signal of its identity is
placed, when the network disconnects or when the hub is shut down, and at no
other time (`Site.mem_signalsOf_act_iff`). So what a network holds is what was
placed and has been spared since (`Site.mem_signalsOf_run_iff`).

It is the block in which a signal lies that takes it along, not the `info` block
that declared it. A device may be gone altogether and leave signals behind:
those for which no block has come (`Site.left_signals_iff`).

Key definitions: `Site.Places`, `Site.Spares`, `Site.PlacedSince`, `Site.Awaits`.
Key theorems: `Hub.Departure.mem_signalsOf`, `Site.mem_signalsOf_act_iff`,
`Site.mem_signalsOf_run_iff`, `Site.left_signals_iff`.
-/
import SignalRegistry.Proofs.SignalOrder

namespace SignalRegistry

open Network (LastOf)

namespace Hub

variable {config : Config} {hub : Hub} {alive : Nat → Bool} {name : NetworkName}

/-- A block that goes takes its signals along, and if the network disconnects
with it, all signals go. -/
theorem Departure.mem_signalsOf {id : Nat} {out : Hub × Except Error Unit × Journal}
    (hd : Departure alive hub id out) (hs : hub.Sound config) (t : Signal) :
    t ∈ out.1.registry.signalsOf name.text ↔ t ∈ hub.registry.signalsOf name.text ∧
      (∀ m ∈ hub.blocks, m.id = id → m.identity.network = name →
        t.liesIn m.identity.block.text m.identity.device.text m.identity.number = false) ∧
      ¬ HasFarewell name out.2.2.notices := by
  cases hd with
  | unknown absent =>
    refine (and_iff_left ⟨fun m hm hid => ?_, not_hasFarewell_nil⟩).symm
    exact absurd hid (id_ne_of_not_holds absent hm)
  | @alone block held is absent journal notices =>
    rw [notices, hs.forall_id_iff held is]
    refine (and_iff_left_of_imp fun ht => ⟨fun hnet => ?_,
      not_hasFarewell_blockNotice _ _ Event.Kind.noConfusion⟩).symm
    unfold Registry.signalsOf at ht
    rw [← hnet, absent] at ht
    exact absurd ht List.not_mem_nil
  | @forgotten block held is n before r journal updates notices =>
    have hname : (n.forget alive block).1.name = block.identity.network := by
      rw [Network.forget_name]
      exact Name.ext (Registry.name_of_named? hs.registry before)
    rw [notices, hasFarewell_forgotten_iff hname, hs.forall_id_iff held is]
    by_cases hnet : block.identity.network = name
    · subst hnet
      obtain ⟨h, hg, -⟩ := (Registry.named?_eq_some_iff hs.registry).1 before
      have hwf := (hs.registry.each h n hg).signals
      rw [updates.signalsOf_self, Registry.items_afterForget _ hwf,
        Registry.signalsOf_of_named? before, forall_prop_of_true rfl, and_iff_left rfl]
      by_cases hempty : (n.forget alive block).1.shortcuts.isEmpty = true
      · -- The network ends. A drained one had no signals before.
        rw [if_pos hempty]
        refine iff_of_false List.not_mem_nil ?_
        rintro ⟨ht, -, hstays⟩
        rcases (hs.settled h n hg).staged with ⟨hactive, -⟩ | ⟨-, -, hnil⟩
        · exact hstays ⟨hactive, hempty⟩
        · rw [hnil] at ht
          exact absurd ht List.not_mem_nil
      · rw [if_neg hempty, List.mem_filter, Bool.not_eq_true']
        exact and_congr_right fun _ => (and_iff_left fun hgoes => hempty hgoes.2).symm
    · have hne : name.text ≠ block.identity.network.text := fun htext => hnet (Name.ext htext.symm)
      rw [updates.signalsOf_of_ne hne]
      exact (and_iff_left ⟨fun hnet' => absurd hnet' hnet, fun hgoes => hnet hgoes.2⟩).symm

end Hub

namespace Site

variable {config : Config} {s : Site} {a : Action} {name : NetworkName} {t : Signal}

/-- Of the signals of an identity that the action enters in the network, this is
the last. -/
def Places (s : Site) (a : Action) (name : NetworkName) (t : Signal) : Prop :=
  LastOf (s.entered name a) t

/-- The action leaves a signal where it is: it places no other of its identity,
does not take its block away, and neither the network nor the hub ends by it. -/
structure Spares (s : Site) (a : Action) (name : NetworkName) (t : Signal) : Prop where
  unreplaced : ∀ u, s.Places a name u → u.identity ≠ t.identity
  untaken : ∀ m ∈ s.hub.blocks, a = .depart m.id → m.identity.network = name →
    t.liesIn m.identity.block.text m.identity.device.text m.identity.number = false
  connected : ¬ s.Disconnects a name
  continued : a ≠ .shutDown

/-- No other of its identity is placed exactly if none is entered. -/
theorem unreplaced_iff :
    (∀ u, s.Places a name u → u.identity ≠ t.identity) ↔
      ∀ u ∈ s.entered name a, u.identity ≠ t.identity := by
  constructor
  · intro hall u hu
    obtain ⟨v, hlast, hid⟩ := Network.exists_lastOf hu
    exact hid ▸ hall v hlast
  · exact fun hall u hu => hall u hu.mem

/-- An action that neither takes a block away nor shuts the hub down can do no
more to a signal than to replace it. -/
theorem spares_iff_of_ne (hs : s.hub.Sound config) (hdepart : ∀ id, a ≠ .depart id)
    (hshut : a ≠ .shutDown) :
    s.Spares a name t ↔ ∀ u, s.Places a name u → u.identity ≠ t.identity := by
  constructor
  · exact fun hspares => hspares.unreplaced
  · intro hall
    refine ⟨hall, fun m _ hd => absurd hd (hdepart m.id), fun hd => ?_, hshut⟩
    obtain ⟨block, -, hblock, -⟩ := (disconnects_iff hs).1 hd
    exact hdepart block.id hblock

/-- After an action, a network has what is placed, and of what it had before what
is spared. -/
theorem mem_signalsOf_act_iff (hs : s.hub.Sound config) :
    t ∈ (s.act a).hub.registry.signalsOf name.text ↔
      s.Places a name t ∨ t ∈ s.hub.registry.signalsOf name.text ∧ s.Spares a name t := by
  by_cases harrive : ∃ id, a = .arrive id
  · obtain ⟨id, rfl⟩ := harrive
    rw [spares_iff_of_ne hs (fun _ => Action.noConfusion) Action.noConfusion, unreplaced_iff,
      (sameOrder_arrive hs id name).mem_iff, Network.mem_foldl_enter_iff]
    exact Iff.rfl
  have hnone : ∀ id, a ≠ .arrive id := fun id he => harrive ⟨id, he⟩
  have hplaces : ∀ u, ¬ s.Places a name u := by
    intro u hu
    unfold Places at hu
    rw [entered_of_ne hnone] at hu
    exact Network.not_lastOf_nil u hu
  rw [or_iff_right (hplaces t)]
  by_cases hdepart : ∃ id, a = .depart id
  · obtain ⟨id, rfl⟩ := hdepart
    rw [hub_act_depart, (Hub.departure hs.registry s.isAlive id).mem_signalsOf hs]
    refine and_congr_right fun _ => ?_
    rw [← hears_depart]
    constructor
    · rintro ⟨huntaken, hconnected⟩
      refine ⟨fun u hu => absurd hu (hplaces u), fun m hm hd => ?_, hconnected, Action.noConfusion⟩
      exact huntaken m hm (Action.depart.inj hd).symm
    · intro hspares
      exact ⟨fun m hm hid => hspares.untaken m hm (by rw [hid]), hspares.connected⟩
  by_cases hshut : a = .shutDown
  · subst hshut
    refine iff_of_false ?_ fun hkept => hkept.2.continued rfl
    rw [signalsOf_shutDown]
    exact List.not_mem_nil
  · have hdepart' : ∀ id, a ≠ .depart id := fun id he => hdepart ⟨id, he⟩
    rw [signalsOf_act_of_ne hs hnone hdepart' hshut,
      spares_iff_of_ne hs hdepart' hshut]
    exact (and_iff_left fun u hu => absurd hu (hplaces u)).symm

/-! ### What has been placed and spared -/

/-- The signal was placed, and every action since is one that `P` allows. -/
def PlacedSince (P : Site → Action → Prop) (s : Site) (actions : List Action)
    (name : NetworkName) (t : Signal) : Prop :=
  ∃ before a after, actions = before ++ a :: after ∧ (s.run before).Places a name t ∧
    Throughout P (s.run (before ++ [a])) after

theorem placedSince_concat {P : Site → Action → Prop} (s : Site) (actions : List Action)
    (a : Action) : PlacedSince P s (actions ++ [a]) name t ↔
      (s.run actions).Places a name t ∨ PlacedSince P s actions name t ∧ P (s.run actions) a := by
  constructor
  · rintro ⟨before, b, after, he, hplaces, hsince⟩
    rcases after.eq_nil_or_concat with rfl | ⟨after, c, rfl⟩
    · obtain ⟨rfl, hlast⟩ := List.append_inj' he rfl
      obtain rfl := (List.cons.inj hlast).1
      exact Or.inl hplaces
    · rw [List.concat_eq_append, ← List.cons_append, ← List.append_assoc] at he
      obtain ⟨rfl, hlast⟩ := List.append_inj' he rfl
      obtain rfl := (List.cons.inj hlast).1
      rw [List.concat_eq_append, throughout_concat, ← run_append] at hsince
      rw [List.append_assoc] at hsince
      exact Or.inr ⟨⟨before, b, after, rfl, hplaces, hsince.1⟩, hsince.2⟩
  · rintro (hplaces | ⟨⟨before, b, after, rfl, hplaces, hsince⟩, hlast⟩)
    · exact ⟨actions, a, [], rfl, hplaces, trivial⟩
    · refine ⟨before, b, after ++ [a], by simp, hplaces, ?_⟩
      rw [throughout_concat, ← run_append, List.append_assoc]
      exact ⟨hsince, hlast⟩

/-- A network has what was placed in it and has been spared since. By induction on
the run, from its end. -/
theorem mem_signalsOf_run_iff (hs : s.hub.Sound config)
    (hnone : s.hub.registry.signalsOf name.text = []) (actions : List Action) :
    t ∈ (s.run actions).hub.registry.signalsOf name.text ↔
      PlacedSince (fun s a => s.Spares a name t) s actions name t := by
  induction actions using List.reverseRecOn with
  | nil =>
    refine iff_of_false ?_ ?_
    · show t ∉ s.hub.registry.signalsOf name.text
      rw [hnone]
      exact List.not_mem_nil
    · rintro ⟨before, a, after, he, -⟩
      exact List.append_ne_nil_of_right_ne_nil before (List.cons_ne_nil a after) he.symm
  | append_singleton actions a ih =>
    rw [run_concat, mem_signalsOf_act_iff (sound_run hs actions), placedSince_concat, ih]

/-! ### Signals whose block has not come -/

/-- The signal is spared, and no block of the identity in which it lies is held. -/
structure Awaits (s : Site) (a : Action) (name : NetworkName) (t : Signal) : Prop where
  absent : ∀ m ∈ s.hub.blocks, m.identity ≠ t.blockIn name
  unreplaced : ∀ u, s.Places a name u → u.identity ≠ t.identity
  connected : ¬ s.Disconnects a name
  continued : a ≠ .shutDown

theorem Awaits.spares (h : s.Awaits a name t) : s.Spares a name t where
  unreplaced := h.unreplaced
  untaken m hm _ hnet := by
    rw [← Bool.not_eq_true, Signal.liesIn_iff, hnet]
    exact h.absent m hm
  connected := h.connected
  continued := h.continued

theorem Spares.awaits (h : s.Spares a name t)
    (habsent : ∀ m ∈ s.hub.blocks, m.identity ≠ t.blockIn name) : s.Awaits a name t :=
  ⟨habsent, h.unreplaced, h.connected, h.continued⟩

/-- What spares a signal leaves its block in the list. -/
theorem mem_blocks_of_spares (hs : s.hub.Sound config) {m : BlockRef} (hm : m ∈ s.hub.blocks)
    (hidentity : m.identity = t.blockIn name) (h : s.Spares a name t) :
    m ∈ (s.act a).hub.blocks := by
  refine mem_blocks_act hs hm (fun hd => ?_) h.continued
  have hnet : m.identity.network = name := congrArg BlockIdentity.network hidentity
  have huntaken := h.untaken m hm hd hnet
  rw [← Bool.not_eq_true, Signal.liesIn_iff, hnet] at huntaken
  exact huntaken hidentity

theorem mem_blocks_of_spared_run (hs : s.hub.Sound config) {m : BlockRef}
    (hm : m ∈ s.hub.blocks) (hidentity : m.identity = t.blockIn name) {actions : List Action}
    (h : Throughout (fun s a => s.Spares a name t) s actions) :
    m ∈ (s.run actions).hub.blocks := by
  induction actions generalizing s with
  | nil => exact hm
  | cons a actions ih =>
    exact ih (sound_act hs a) (mem_blocks_of_spares hs hm hidentity h.1) h.2

/-- If in the end no block is held in which a signal lies that has been spared all
the time, none was held at any time: it would be there still. -/
theorem throughout_awaits_iff (hs : s.hub.Sound config) (actions : List Action)
    (hgone : ∀ m ∈ (s.run actions).hub.blocks, m.identity ≠ t.blockIn name) :
    Throughout (fun s a => s.Spares a name t) s actions ↔
      Throughout (fun s a => s.Awaits a name t) s actions := by
  induction actions generalizing s with
  | nil => exact Iff.rfl
  | cons a actions ih =>
    have hrest := ih (sound_act hs a) hgone
    constructor
    · intro h
      refine ⟨Spares.awaits h.1 fun m hm hid => ?_, hrest.1 h.2⟩
      exact hgone m (mem_blocks_of_spared_run hs hm hid h) hid
    · exact fun h => ⟨h.1.spares, hrest.2 h.2⟩

/-- A signal whose block is not held is in its network exactly if it was placed and
its block has not been held since, no other signal of its identity was placed,
the network has not disconnected and the hub was not shut down. -/
theorem mem_signalsOf_iff_awaits (hs : s.hub.Sound config)
    (hnone : s.hub.registry.signalsOf name.text = []) (actions : List Action)
    (hgone : ∀ m ∈ (s.run actions).hub.blocks, m.identity ≠ t.blockIn name) :
    t ∈ (s.run actions).hub.registry.signalsOf name.text ↔
      PlacedSince (fun s a => s.Awaits a name t) s actions name t := by
  rw [mem_signalsOf_run_iff hs hnone]
  unfold PlacedSince
  refine exists_congr fun before => exists_congr fun a => exists_congr fun after => ?_
  refine and_congr_right fun he => and_congr_right fun _ => ?_
  refine throughout_awaits_iff (sound_run hs _) after ?_
  rw [← run_append, List.append_assoc]
  exact he ▸ hgone

/-- What is bound is a signal of its network. -/
theorem mem_signalsOf_of_resolvePath (hs : s.hub.Sound config) {path : String}
    {own : Option String} {b : Binding} (hb : (s.resolvePath path own).2.1 = some b) :
    b.signal ∈ s.hub.registry.signalsOf b.network.text := by
  obtain ⟨ids, hids⟩ := Hub.resolvePath_answer s.isAlive s.hub s.memory path own
  rw [resolvePath_answer, hids] at hb
  obtain ⟨h, n, hg, hname, hmem, -⟩ := hs.resolve_eq_some (fun b => s.isAlive_of_mem) hb
  have hn := (Registry.named?_eq_some_iff hs.registry).2 ⟨h, hg, rfl⟩
  rw [hname, Registry.signalsOf_of_named? hn]
  exact hmem

/-- What is listed for a path are signals of the network that it names. -/
theorem mem_signalsOf_of_matching (hs : s.hub.Sound config) {path : String}
    (ht : t ∈ s.hub.matching path) :
    t ∈ s.hub.registry.signalsOf (s.hub.selector .signal path).network.text := by
  rw [hs.matching_eq] at ht
  split at ht
  · exact absurd ht List.not_mem_nil
  · exact (List.mem_filter.1 ht).1

/-- **Only signals that no block has come for are left of a device.** When no block
of a device is left in a network, the network holds exactly those signals of the
device for which no block has come since they were placed. Only these are still
listed, and they are bound to no block. -/
theorem left_signals_iff (config : Config) (actions : List Action) {device : BlockName}
    {number : UInt32} {name : NetworkName}
    (hgone : ∀ m ∈ ((ofConfig config).run actions).hub.blocks, m.identity.device = device →
      m.identity.number = number → m.identity.network ≠ name) :
    let s := (ofConfig config).run actions
    let awaited := fun t => PlacedSince (fun s a => s.Awaits a name t) (ofConfig config) actions name t
    (∀ t : Signal, t.device = device → t.number = number →
      (t ∈ s.hub.registry.signalsOf name.text ↔ awaited t)) ∧
    (∀ path, ∀ t ∈ s.hub.matching path, (s.hub.selector .signal path).network = name →
      t.device = device → t.number = number → awaited t) ∧
    ∀ path own b, (s.resolvePath path own).2.1 = some b → b.network = name →
      b.signal.device = device → b.signal.number = number → awaited b.signal ∧ b.block = none := by
  intro s awaited
  have hs : s.hub.Sound config := sound_run (Hub.sound_ofConfig config) actions
  have hleft : ∀ t : Signal, t.device = device → t.number = number →
      (t ∈ s.hub.registry.signalsOf name.text ↔ awaited t) := by
    intro t hdevice hnumber
    have hempty : (ofConfig config).hub.registry.signalsOf name.text = [] :=
      Registry.signalsOf_empty config name.text
    refine mem_signalsOf_iff_awaits (Hub.sound_ofConfig config) hempty actions fun m hm hid => ?_
    have hdevice' : m.identity.device = device := by rw [hid]; exact hdevice
    have hnumber' : m.identity.number = number := by rw [hid]; exact hnumber
    exact hgone m hm hdevice' hnumber' (by rw [hid]; rfl)
  refine ⟨hleft, fun path t ht hnet hdevice hnumber => ?_, fun path own b hb hnet hdevice hnumber => ?_⟩
  · exact (hleft t hdevice hnumber).1 (hnet ▸ mem_signalsOf_of_matching hs ht)
  · refine ⟨(hleft b.signal hdevice hnumber).1 (hnet ▸ mem_signalsOf_of_resolvePath hs hb), ?_⟩
    rw [Option.eq_none_iff_forall_ne_some]
    intro m hm
    obtain ⟨hmem, hid, -⟩ := bound_of_resolvePath hs hb hm
    have hdevice' : m.identity.device = device := by rw [hid]; exact hdevice
    have hnumber' : m.identity.number = number := by rw [hid]; exact hnumber
    exact hgone m hmem hdevice' hnumber' (by rw [hid]; exact hnet)

/-! ### A device that leaves a signal behind -/

/-- A connection creates a block, reports it or takes it away. -/
def Action.isReport : Action → Bool
  | .publish _ | .arrive _ | .depart _ => true
  | _ => false

/-- The tables of two devices come to one network, and the first goes. The block
in which its signal lies has never come. -/
def firstLeaves : List Action :=
  [.publish (infoBlock "gina" 1), .publish (infoBlock "gina" 2), .arrive 0, .arrive 1, .depart 0]

theorem run_firstLeaves :
    ((ofConfig .default).run firstLeaves).hub.blocks = [⟨1, (infoBlock "gina" 2).identity⟩] ∧
    ((ofConfig .default).run firstLeaves).hub.registry.signalsOf "n" =
      [dataSignal, { dataSignal with number := 2 }] := by decide +kernel

theorem gone_firstLeaves (name : NetworkName) :
    ∀ m ∈ ((ofConfig .default).run firstLeaves).hub.blocks, m.identity.device = dataSignal.device →
      m.identity.number = dataSignal.number → m.identity.network ≠ name := by
  intro m hm _ hnumber
  rw [run_firstLeaves.1, List.mem_singleton] at hm
  rw [hm] at hnumber
  exact absurd hnumber (by decide)

/-- The signal of the first device is left, and waits for its block. -/
theorem left_signals_firstLeaves :
    dataSignal ∈ ((ofConfig .default).run firstLeaves).hub.registry.signalsOf "n" ∧
      PlacedSince (fun s a => s.Awaits a (.cut 24 "n") dataSignal) (ofConfig .default)
        firstLeaves (.cut 24 "n") dataSignal := by
  have hmem : dataSignal ∈ ((ofConfig .default).run firstLeaves).hub.registry.signalsOf "n" := by
    rw [run_firstLeaves.2]
    exact List.mem_cons_self
  obtain ⟨hleft, -, -⟩ := left_signals_iff .default firstLeaves (gone_firstLeaves (.cut 24 "n"))
  have hiff := hleft dataSignal rfl rfl
  rw [text_network] at hiff
  exact ⟨hmem, hiff.1 hmem⟩

/-- Not every device takes all its signals along with its last block. -/
theorem signal_left_behind : ¬ ∀ (config : Config) (actions : List Action) (device : BlockName)
    (number : UInt32) (name : NetworkName), (∀ a ∈ actions, a.isReport = true) →
    (∀ m ∈ ((ofConfig config).run actions).hub.blocks, m.identity.device = device →
      m.identity.number = number → m.identity.network ≠ name) →
    ∀ t ∈ ((ofConfig config).run actions).hub.registry.signalsOf name.text, t.device = device →
      t.number ≠ number := by
  intro h
  have hreports : ∀ a ∈ firstLeaves, a.isReport = true := by simp [firstLeaves, Action.isReport]
  have hnone := h .default firstLeaves dataSignal.device dataSignal.number (.cut 24 "n")
    hreports (gone_firstLeaves _) dataSignal
  rw [text_network, run_firstLeaves.2] at hnone
  exact hnone List.mem_cons_self rfl rfl

end Site
end SignalRegistry
