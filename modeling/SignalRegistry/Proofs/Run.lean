/-
# Runs of a site

A run is any sequence of what connections and applications do at a site:
blocks are published, reported, changed, taken away and let go, the allocator
changes what it grants, paths are resolved, read and written, and event queues
are made, used and closed. After
every run the hub is consistent: its list of blocks and its networks agree, and
no network outlives the blocks that feed it (`Site.consistent_run`).

Key definitions: `Site.Action`, `Site.act`, `Site.run`, `Hub.Consistent`.
Key theorems: `Site.sound_run`, `Site.consistent_run`.
-/
import SignalRegistry.Proofs.Resolution
import SignalRegistry.Site

namespace SignalRegistry

/-- Something that a connection or an application does. -/
inductive Site.Action where
  | publish (block : Block)
  | letGo (id : Nat)
  | arrive (id : Nat)
  | depart (id : Nat)
  | changeBlock (id : Nat) (f : Block → Except Error Block)
  /-- The allocator grants other sizes from now on. -/
  | allot (grants : Nat → Nat → Bool)
  | resolve (ids : Selector)
  | resolvePath (path : String) (own : Option String)
  | getPath (path : String)
  | setPath (path : String) (value : Value)
  /-- Lists the signals that a path matches. -/
  | find (path : String)
  | write (b : Binding) (value : Value) (state : UInt8)
  | listen (listening : Bool)
  | openQueue (depth : Nat) (mask : Event.Mask)
  | openConfiguredQueue
  | closeQueue
  /-- Puts an event into a queue, in use or not. -/
  | push (i : Nat) (e : Event)
  /-- Takes events from a queue, empties it or waits for it. -/
  | changeQueue (i : Nat) (f : Event.Queue → Event.Queue)
  | shutDown

namespace Site

/-- The site after an action. -/
def act (s : Site) : Action → Site
  | .publish block => (s.publish block).1
  | .letGo id => s.letGo id
  | .arrive id => (s.arrive id).1
  | .depart id => (s.depart id).1
  | .changeBlock id f => (s.changeBlock id f).1
  | .allot grants => s.allot grants
  | .resolve ids => (s.resolve ids).1
  | .resolvePath path own => (s.resolvePath path own).1
  | .getPath path => (s.getPath path).1
  | .setPath path value => (s.setPath path value).1
  | .find _ => s
  | .write b value state => (s.write b value state).1
  | .listen listening => { s with listening := listening }
  | .openQueue depth mask => s.openQueue depth mask
  | .openConfiguredQueue => s.openConfiguredQueue
  | .closeQueue => s.closeQueue
  | .push i e => (s.push i e).1
  | .changeQueue i f => s.changeQueue i f
  | .shutDown => s.shutDown.1

/-- The site after a sequence of actions. -/
def run (s : Site) (actions : List Action) : Site := actions.foldl act s

/-! ### One action -/

theorem hub_clearQueue (s : Site) : s.clearQueue.hub = s.hub := by
  unfold clearQueue
  split <;> rfl

theorem hub_openQueue (s : Site) (depth : Nat) (mask : Event.Mask) :
    (s.openQueue depth mask).hub = s.hub := s.hub_clearQueue

theorem hub_push (s : Site) (i : Nat) (e : Event) : (s.push i e).1.hub = s.hub := by
  obtain ⟨qs, h⟩ := s.push_eq i e
  rw [h]

/-- The blocks of the hub are alive. -/
theorem isAlive_of_mem (s : Site) {b : BlockRef} (hb : b ∈ s.hub.blocks) :
    s.isAlive b.id = true := by
  unfold isAlive
  rw [(s.hub.holds_iff b.id).2 ⟨b, hb, rfl⟩, Bool.or_true]

/-- The hub of a site stays sound, whatever is done. -/
theorem sound_act {config : Config} {s : Site} (hs : s.hub.Sound config) (a : Action) :
    (s.act a).hub.Sound config := by
  have halive : ∀ b ∈ s.hub.blocks, s.isAlive b.id = true := fun b => s.isAlive_of_mem
  cases a with
  | publish block => exact hs
  | letGo id => exact hs
  | arrive id =>
    simp only [act, arrive]
    split
    · exact hs
    · rename_i ref _
      simp only [hub_deliver]
      exact hs.arrive s.memory ref
  | depart id =>
    simp only [act, depart, hub_deliver]
    exact hs.depart id
  | changeBlock id f => exact hs
  | allot grants => exact hs
  | resolve ids =>
    simp only [act, resolve, hub_deliver]
    exact hs.resolve halive s.memory ids
  | resolvePath path own =>
    simp only [act, resolvePath, hub_deliver]
    exact hs.resolvePath halive s.memory path own
  | getPath path =>
    simp only [act, getPath, hub_deliver, Hub.getPath_fst]
    exact hs.resolvePath halive s.memory path none
  | setPath path value =>
    simp only [act, setPath, hub_deliver, Hub.setPath_fst]
    exact hs.resolvePath halive s.memory path none
  | find path => exact hs
  | write b value state => exact hs
  | listen listening => exact hs
  | openQueue depth mask =>
    simp only [act, hub_openQueue]
    exact hs
  | openConfiguredQueue =>
    simp only [act, openConfiguredQueue, hub_openQueue]
    exact hs
  | closeQueue =>
    simp only [act, closeQueue, hub_clearQueue]
    exact hs
  | push i e =>
    simp only [act, hub_push]
    exact hs
  | changeQueue i f => exact hs
  | shutDown =>
    simp only [act, shutDown, hub_deliver]
    exact hs.shutDown

/-! ### Whole runs -/

theorem run_append (s : Site) (actions more : List Action) :
    s.run (actions ++ more) = (s.run actions).run more := List.foldl_append

/-- By induction on the run, each action of which keeps the hub sound. -/
theorem sound_run {config : Config} {s : Site} (hs : s.hub.Sound config) (actions : List Action) :
    (s.run actions).hub.Sound config := by
  induction actions generalizing s with
  | nil => exact hs
  | cons a actions ih => exact ih (sound_act hs a)

/-- Blocks that depart in any order are gone, and no block comes. -/
theorem mem_blocks_departs {config : Config} {s : Site} (hs : s.hub.Sound config) (ids : List Nat)
    {b : BlockRef} (hb : b ∈ (s.run (ids.map .depart)).hub.blocks) :
    b ∈ s.hub.blocks ∧ b.id ∉ ids := by
  induction ids generalizing s with
  | nil => exact ⟨hb, List.not_mem_nil⟩
  | cons id ids ih =>
    obtain ⟨hmem, hids⟩ := ih (sound_act hs (.depart id)) hb
    have hhub : (s.act (.depart id)).hub = (s.hub.depart s.isAlive id).1 := by
      simp only [act, depart, hub_deliver]
    rw [hhub] at hmem
    obtain ⟨hmem, hid⟩ := hs.mem_blocks_depart hmem
    exact ⟨hmem, List.not_mem_cons_of_ne_of_not_mem hid hids⟩

end Site

/-- The blocks and networks of a hub agree: no block is held twice, networks
have distinct names that are not empty, their shortcuts lead to blocks that the
hub holds and that are in the network, each block has one at most, and a
network is active with a shortcut or, if empty networks are kept, drained
and without a signal. -/
structure Hub.Consistent (config : Config) (hub : Hub) : Prop where
  blocks : (hub.blocks.map BlockRef.id).Nodup
  names : (hub.registry.networks.items.map fun n => n.name.text).Nodup
  named : ∀ n ∈ hub.registry.networks.items, n.name.text ≠ ""
  linked : ∀ n ∈ hub.registry.networks.items, ∀ b ∈ n.shortcuts.blocks,
    b ∈ hub.blocks ∧ b.identity.network = n.name
  once : ∀ n ∈ hub.registry.networks.items, (n.shortcuts.blocks.map BlockRef.id).Nodup
  staged : ∀ n ∈ hub.registry.networks.items,
    n.phase = .active ∧ n.shortcuts.blocks ≠ [] ∨
      config.removeEmptyNetworks = false ∧ n.phase = .draining ∧ n.signals.items = []

theorem Hub.Sound.consistent {config : Config} {hub : Hub} (hs : hub.Sound config) :
    hub.Consistent config := by
  have hitem : ∀ n ∈ hub.registry.networks.items,
      n.name.text ≠ "" ∧ n.WellFormed ∧ n.Settled config hub.blocks := by
    intro n hn
    obtain ⟨h, hg⟩ := (Index.mem_items hs.registry.networks n).1 hn
    exact ⟨hs.registry.named h n hg, hs.registry.each h n hg, hs.settled h n hg⟩
  exact {
    blocks := hs.blocks
    names := hs.registry.names.nodup_map hs.registry.networks
    named := fun n hn => (hitem n hn).1
    linked := fun n hn => (hitem n hn).2.2.linked
    once := fun n hn => (hitem n hn).2.1.blocks
    staged := fun n hn => (hitem n hn).2.2.staged }

namespace Site

/-- **The hub is consistent after every run.** Once it holds no block any more, it
has no network left; if empty networks are kept, those that are left are
drained and have neither signals nor shortcuts. It holds no block any more when
all have departed, in whatever order. -/
theorem consistent_run (config : Config) (actions : List Action) :
    ((ofConfig config).run actions).hub.Consistent config ∧
      (((ofConfig config).run actions).hub.blocks = [] →
        (config.removeEmptyNetworks = true →
          ((ofConfig config).run actions).hub.registry.networks.items = [] ∧
          ((ofConfig config).run actions).hub.registry.networks.size = 0) ∧
        ∀ n ∈ ((ofConfig config).run actions).hub.registry.networks.items,
          n.phase = .draining ∧ n.signals.items = [] ∧ n.shortcuts.blocks = []) ∧
      ∀ ids : List Nat, (∀ b ∈ ((ofConfig config).run actions).hub.blocks, b.id ∈ ids) →
        ((ofConfig config).run (actions ++ ids.map .depart)).hub.blocks = [] := by
  have hs := sound_run (s := ofConfig config) (Hub.sound_ofConfig config) actions
  refine ⟨hs.consistent, fun hb => ⟨fun hc => ?_, fun n hn => (hs.unfed hb hn).2⟩, fun ids hall => ?_⟩
  · have hnil : ((ofConfig config).run actions).hub.registry.networks.items = [] := by
      rw [List.eq_nil_iff_forall_not_mem]
      intro n hn
      rw [(hs.unfed hb hn).1] at hc
      cases hc
    refine ⟨hnil, ?_⟩
    rw [Index.size_eq hs.registry.networks, hnil, List.length_nil]
  · rw [run_append, List.eq_nil_iff_forall_not_mem]
    intro b hb
    obtain ⟨hmem, hids⟩ := mem_blocks_departs hs ids hb
    exact hids (hall b hmem)

end Site
end SignalRegistry
