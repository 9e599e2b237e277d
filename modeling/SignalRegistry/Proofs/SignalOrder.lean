/-
# The order in which the signals of a network were entered

A report of a device enters the signals of its table in the network, in the order
of the table (`Hub.entered`). Nothing else enters signals, and what goes leaves
the others where they are. So the record of what was entered and is still there
(`SignalRecord.after`) has the signals of every name in the order in which the
network lists them (`SignalRecord.sameOrder_after`): the first signal of a name in
the table is the one that was entered first.

Key definitions: `Hub.entered`, `Site.entered`, `SignalRecord.after`.
Key theorems: `Hub.Arrival.sameOrder`, `Hub.Departure.signalsOf_sublist`,
`SignalRecord.sameOrder_after`.
-/
import SignalRegistry.Proofs.Binding
import SignalRegistry.Proofs.Fit

namespace SignalRegistry

open Network (SameOrder)

namespace Registry

theorem signalsOf_empty (config : Config) (name : String) :
    ({ config := config } : Registry).signalsOf name = [] := by
  have hnone : ({ config := config } : Registry).named? name = none :=
    (named?_eq_none_iff (wellFormed_empty config)).2 fun h n hg => by simp at hg
  unfold signalsOf
  rw [hnone]
  rfl

/-- A network lists no signal twice. -/
theorem WellFormed.nodup_signalsOf {r : Registry} (hr : r.WellFormed) (name : String) :
    (r.signalsOf name).Nodup := by
  cases hn : r.named? name with
  | none =>
    unfold signalsOf
    rw [hn]
    exact List.nodup_nil
  | some n =>
    obtain ⟨h, hg, -⟩ := (named?_eq_some_iff hr).1 hn
    have hwf := hr.each h n hg
    rw [signalsOf_of_named? hn]
    exact (hwf.identity.nodup_map hwf.signals).of_map

/-- A network that forgets a block keeps the signals that do not lie in it, or none if it
ends. -/
theorem items_afterForget (r : Registry) {alive : Nat → Bool} {block : BlockRef} {n : Network}
    (hn : n.signals.WellFormed) :
    ((r.afterForget alive block n).map fun m => m.signals.items).getD [] =
      if (n.forget alive block).1.shortcuts.isEmpty then []
      else n.signals.items.filter fun s => !s.liesIn block.identity.block.text
        block.identity.device.text block.identity.number := by
  unfold afterForget
  simp only
  split
  · unfold leftOver
    split
    · rfl
    · exact Index.items_empty
  · exact Network.items_forget hn

namespace Updates

variable {r r' : Registry} {name other : String} {n? : Option Network}

theorem signalsOf_self (hu : r.Updates r' name n?) :
    r'.signalsOf name = (n?.map fun n => n.signals.items).getD [] := by
  unfold signalsOf
  rw [hu.named, if_pos rfl]

theorem signalsOf_of_ne (hu : r.Updates r' name n?) (hne : other ≠ name) :
    r'.signalsOf other = r.signalsOf other := by
  unfold signalsOf
  rw [hu.named, if_neg hne]

end Updates
end Registry

namespace Hub

variable {config : Config} {hub : Hub} {alive : Nat → Bool} {memory : Memory} {block : BlockRef}
  {name : NetworkName}

/-- The signals that a block enters in a network when it comes: if it is new and
has a table that can be read, in this network and the network can have its name,
those that the table declares and that fit their blocks. -/
def entered (hub : Hub) (memory : Memory) (block : BlockRef) (name : NetworkName) : List Signal :=
  if hub.holds block.id = false ∧ block.identity.holdsTable = true ∧
      block.identity.network = name ∧ Network.Accepts name then
    match Layout.parse (memory.bytes block.id) with
    | .ok layouts => hub.placedBy memory block layouts
    | .error _ => []
  else []

theorem entered_eq_nil (h : hub.holds block.id = true ∨ block.identity.holdsTable = false ∨
    block.identity.network ≠ name ∨ ¬ Network.Accepts name ∨
    ∃ why, Layout.parse (memory.bytes block.id) = .error why) :
    hub.entered memory block name = [] := by
  unfold entered
  split
  · rename_i hnew
    rcases h with hheld | hdata | hnet | hrefused | ⟨why, herror⟩
    · rw [hnew.1] at hheld
      cases hheld
    · rw [hnew.2.1] at hdata
      cases hdata
    · exact absurd hnew.2.2.1 hnet
    · exact absurd hnew.2.2.2 hrefused
    · rw [herror]
  · rfl

theorem entered_eq_placedBy (hnew : hub.holds block.id = false)
    (htable : block.identity.holdsTable = true) (hname : Network.Accepts block.identity.network)
    {layouts : List Layout} (hparse : Layout.parse (memory.bytes block.id) = .ok layouts) :
    hub.entered memory block block.identity.network = hub.placedBy memory block layouts := by
  unfold entered
  rw [if_pos ⟨hnew, htable, rfl, hname⟩, hparse]

/-- A block of data changes no signal. -/
theorem signalsOf_link {r : Registry} (hu : hub.registry.Updates r block.identity.network.text
    ((hub.registry.named? block.identity.network.text).map fun n => (n.link block).1)) :
    r.signalsOf name.text = hub.registry.signalsOf name.text := by
  by_cases hnet : name.text = block.identity.network.text
  · rw [hnet, hu.signalsOf_self, Option.map_map]
    unfold Registry.signalsOf
    simp only [Function.comp_def, Network.link_signals]
  · exact hu.signalsOf_of_ne hnet

/-- A block that comes enters its signals one after the other. -/
theorem Arrival.sameOrder {out : Hub × Memory × Except Error Unit × Journal}
    (ha : Arrival alive hub memory block out) (hr : hub.registry.WellFormed) :
    SameOrder (out.1.registry.signalsOf name.text)
      ((hub.entered memory block name).foldl Network.enter (hub.registry.signalsOf name.text)) := by
  -- Where nothing is entered, nothing changes.
  have hsame : hub.entered memory block name = [] →
      out.1.registry.signalsOf name.text = hub.registry.signalsOf name.text →
      SameOrder (out.1.registry.signalsOf name.text)
        ((hub.entered memory block name).foldl Network.enter
          (hub.registry.signalsOf name.text)) := by
    intro hnil he
    rw [hnil, he]
    exact .refl _
  cases ha with
  | known held => exact hsame (entered_eq_nil (Or.inl held)) rfl
  | data new kind updates notices =>
    exact hsame (entered_eq_nil (Or.inr (Or.inl kind))) (signalsOf_link updates)
  | @rejected new kind why journal reason notices =>
    refine hsame (entered_eq_nil ?_) rfl
    by_cases hnet : block.identity.network = name
    · rcases reason with herror | hrefused
      · exact Or.inr (Or.inr (Or.inr (Or.inr ⟨why, herror⟩)))
      · exact Or.inr (Or.inr (Or.inr (Or.inl (hnet ▸ hrefused))))
    · exact Or.inr (Or.inr (Or.inl hnet))
  | @registered new kind layouts n m r grown result journal table before after updates growth notices =>
    by_cases hnet : block.identity.network = name
    · subst hnet
      obtain ⟨-, hwf, -⟩ := Registry.provided_eq_ok hr before
      have hname := Registry.accepts_of_provided hr before
      have hentered := entered_eq_placedBy new kind hname table
      rw [hentered, updates.signalsOf_self, after, Option.map_some, Option.getD_some,
        Network.register_signals, Registry.signalsOf_provided hr before]
      exact Network.sameOrder_putSignals hwf _
    · refine hsame (entered_eq_nil (Or.inr (Or.inr (Or.inl hnet)))) ?_
      exact updates.signalsOf_of_ne fun htext => hnet (Name.ext htext.symm)

/-- What is left when a block has gone stays in its order. -/
theorem Departure.signalsOf_sublist {id : Nat} {out : Hub × Except Error Unit × Journal}
    (hd : Departure alive hub id out) (hr : hub.registry.WellFormed) :
    (out.1.registry.signalsOf name.text).Sublist (hub.registry.signalsOf name.text) := by
  cases hd with
  | unknown absent => exact List.Sublist.refl _
  | alone held is absent notices => exact List.Sublist.refl _
  | @forgotten block held is n before r journal updates notices =>
    by_cases hnet : name.text = block.identity.network.text
    · obtain ⟨h, hg, -⟩ := (Registry.named?_eq_some_iff hr).1 before
      have hwf := (hr.each h n hg).signals
      rw [hnet, updates.signalsOf_self, Registry.items_afterForget _ hwf,
        Registry.signalsOf_of_named? before]
      split
      · exact List.nil_sublist _
      · exact List.filter_sublist
    · show (r.signalsOf name.text).Sublist _
      rw [updates.signalsOf_of_ne hnet]

/-- Resolving a selector changes no signal. -/
theorem Sound.signalsOf_resolve (hs : hub.Sound config)
    (halive : ∀ b ∈ hub.blocks, alive b.id = true) (ids : Selector) (name : String) :
    (hub.resolve alive memory ids).1.registry.signalsOf name = hub.registry.signalsOf name := by
  cases hs.resolves halive memory ids with
  | same eq => rw [eq]
  | @links h n b network named fresh updates eq =>
    rw [eq]
    by_cases hnet : name = n.name.text
    · subst hnet
      have hn := (Registry.named?_eq_some_iff hs.registry).2 ⟨h, network, rfl⟩
      rw [updates.signalsOf_self, Registry.signalsOf_of_named? hn, Option.map_some,
        Option.getD_some, Network.link_signals]
    · exact updates.signalsOf_of_ne hnet

/-- What is listed for a path are the signals of the network it names that it
matches, in their order. -/
theorem Sound.matching_eq (hs : hub.Sound config) (path : String) :
    let ids := hub.selector .signal path
    hub.matching path = if ids.signal.isEmpty then []
      else (hub.registry.signalsOf ids.network.text).filter (Network.selects ids) := by
  intro ids
  have hmatching : hub.matching path = hub.registry.matching ids := rfl
  rw [hmatching, Registry.matching, Registry.signalsOf]
  cases hn : hub.registry.named? ids.network.text with
  | none =>
    rw [Option.map_none, Option.getD_none, List.filter_nil]
    exact (ite_self _).symm
  | some n =>
    obtain ⟨h, hg, -⟩ := (Registry.named?_eq_some_iff hs.registry).1 hn
    unfold Network.matching
    simp only [Option.map_some, Option.getD_some]
    split
    · rfl
    · refine (Index.filter_items (hs.registry.each h n hg).signals _ fun t ht => ?_).symm
      exact congrArg Name.text (Network.name_of_selects ht)

end Hub

namespace Site

variable {config : Config} {s : Site} {a : Action} {name : NetworkName}

/-- The signals that an action enters in a network. -/
def entered (s : Site) (name : NetworkName) : Action → List Signal
  | .arrive id =>
    match s.memory.ref? id with
    | some ref => s.hub.entered s.memory ref name
    | none => []
  | _ => []

theorem entered_arrive {id : Nat} {ref : BlockRef} (href : s.memory.ref? id = some ref) :
    s.entered name (.arrive id) = s.hub.entered s.memory ref name := by
  simp only [entered, href]

theorem entered_of_ne (harrive : ∀ id, a ≠ .arrive id) : s.entered name a = [] := by
  cases a with
  | arrive id => exact absurd rfl (harrive id)
  | _ => rfl

/-- Nothing but a report or a shutdown changes the signals of a network. -/
theorem signalsOf_act_of_ne (hs : s.hub.Sound config) (harrive : ∀ id, a ≠ .arrive id)
    (hdepart : ∀ id, a ≠ .depart id) (hshut : a ≠ .shutDown) (name : String) :
    (s.act a).hub.registry.signalsOf name = s.hub.registry.signalsOf name := by
  cases effect hs a with
  | arrived is => exact absurd is (harrive _)
  | departed is => exact absurd is (hdepart _)
  | resolved ids hub hears =>
    rw [hub]
    exact hs.signalsOf_resolve (fun b => s.isAlive_of_mem) ids name
  | ended is => exact absurd is hshut
  | idle hub hears => rw [hub]

theorem signalsOf_shutDown (s : Site) (name : String) :
    (s.act .shutDown).hub.registry.signalsOf name = [] := by
  rw [hub_act_shutDown]
  exact Registry.signalsOf_empty s.hub.registry.config name

/-- A report that a block has come enters signals. -/
theorem sameOrder_arrive (hs : s.hub.Sound config) (id : Nat) (name : NetworkName) :
    SameOrder ((s.act (.arrive id)).hub.registry.signalsOf name.text)
      ((s.entered name (.arrive id)).foldl Network.enter
        (s.hub.registry.signalsOf name.text)) := by
  cases href : s.memory.ref? id with
  | none =>
    have hsame : s.act (.arrive id) = s := by simp only [act, arrive, href]
    have hnil : s.entered name (.arrive id) = [] := by simp only [entered, href]
    rw [hsame, hnil]
    exact .refl _
  | some ref =>
    rw [entered_arrive href, s.hub_act_arrive href]
    exact (Hub.arrival hs.registry _ s.memory ref).sameOrder hs.registry

/-- Any other action leaves what it leaves in its order. -/
theorem signalsOf_act_sublist (hs : s.hub.Sound config) (harrive : ∀ id, a ≠ .arrive id) :
    ((s.act a).hub.registry.signalsOf name.text).Sublist (s.hub.registry.signalsOf name.text) := by
  by_cases hdepart : ∃ id, a = .depart id
  · obtain ⟨id, rfl⟩ := hdepart
    rw [hub_act_depart]
    exact (Hub.departure hs.registry s.isAlive id).signalsOf_sublist hs.registry
  by_cases hshut : a = .shutDown
  · rw [hshut, signalsOf_shutDown]
    exact List.nil_sublist _
  · rw [signalsOf_act_of_ne hs harrive (fun id he => hdepart ⟨id, he⟩) hshut]

end Site

/-- The signals of a network in the order in which they were entered. -/
abbrev SignalRecord := List Signal

namespace SignalRecord

open Site (Action)

variable {config : Config} {s : Site} {name : NetworkName} {r : SignalRecord}

/-- The record after an action: what is entered is added, and what the network has
no longer is left out. -/
def note (name : NetworkName) (s : Site) (r : SignalRecord) (a : Action) : SignalRecord :=
  ((s.entered name a).foldl Network.enter r).filter fun t =>
    t ∈ (s.act a).hub.registry.signalsOf name.text

/-- The record after a sequence of actions. -/
def after (name : NetworkName) (s : Site) (r : SignalRecord) : List Action → SignalRecord
  | [] => r
  | a :: actions => after name (s.act a) (note name s r a) actions

theorem sameOrder_note (hs : s.hub.Sound config)
    (h : SameOrder r (s.hub.registry.signalsOf name.text)) (a : Action) :
    SameOrder (note name s r a) ((s.act a).hub.registry.signalsOf name.text) := by
  have hentered := (h.foldl_enter (s.entered name a)).filter fun t =>
    decide (t ∈ (s.act a).hub.registry.signalsOf name.text)
  refine SameOrder.trans hentered ?_
  by_cases harrive : ∃ id, a = .arrive id
  · obtain ⟨id, rfl⟩ := harrive
    have horder := Site.sameOrder_arrive hs id name
    -- All that was entered is there.
    rw [List.filter_eq_self.2 fun t ht => decide_eq_true ((horder.mem_iff t).2 ht)]
    exact horder.symm
  · have hnone : ∀ id, a ≠ .arrive id := fun id he => harrive ⟨id, he⟩
    rw [Site.entered_of_ne hnone, List.foldl_nil, filter_mem_of_sublist
      (hs.registry.nodup_signalsOf name.text) (Site.signalsOf_act_sublist hs hnone)]
    exact .refl _

/-- The record of a run has the signals of every name in the order in which the
network lists them. By induction on the run. -/
theorem sameOrder_after (hs : s.hub.Sound config)
    (h : SameOrder r (s.hub.registry.signalsOf name.text)) (actions : List Action) :
    SameOrder (after name s r actions) ((s.run actions).hub.registry.signalsOf name.text) := by
  induction actions generalizing s r with
  | nil => exact h
  | cons a actions ih => exact ih (Site.sound_act hs a) (sameOrder_note hs h a)

end SignalRecord
end SignalRegistry
