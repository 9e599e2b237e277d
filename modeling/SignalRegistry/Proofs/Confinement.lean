/-
# Callers confined to their domain

A caller that names its own network reaches no network of another domain: a path
to one is taken to mean its own. What the path is bound to lies in the caller's
domain, with the block if there is one, since no shortcut leads out of its network.

Nor does the answer depend on what is outside. A selector is bound to the first
signal that its network shows and the first block of that signal, through the
shortcuts of the network or else in the list (`Hub.Sound.resolve_eq_bound`). So two
sites that agree on the networks and blocks of a domain give the same answer to
its callers, whatever else they hold (`Site.AgreesIn.resolvePath_eq`).

Key definitions: `Network.view`, `Selector.bound`, `Selector.within`, `Site.AgreesIn`.
Key theorems: `Hub.Sound.resolve_eq_bound`, `Site.AgreesIn.resolvePath_eq`,
`Site.confined_run`.
-/
import SignalRegistry.Proofs.Disconnection

namespace SignalRegistry

/-! ### What an answer is made of -/

/-- What a search sees of a network: its signals, and the blocks that its shortcuts
lead to. -/
structure Network.View where
  signals : List Signal
  linked : List BlockRef
deriving DecidableEq

def Network.view (n : Network) : View := ⟨n.signals.items, n.shortcuts.blocks⟩

namespace Selector

/-- What a selector is bound to, if its network shows this: the first signal that it
selects, and the first block of that signal, unless that is too small. -/
def bound (ids : Selector) (view? : Option Network.View) (blocks : List BlockRef)
    (size : Nat → Nat) : Option Binding :=
  if ids.signal.isEmpty then none
  else view?.bind fun v => (v.signals.find? (Network.selects ids)).map fun s =>
    { network := ids.network
      signal := s
      block := ((v.linked ++ blocks).find? fun b => b.identity = s.blockIn ids.network).filter
        fun b => s.stop ≤ size b.id }

/-- Only blocks of the selector's own network count. -/
theorem bound_filter (ids : Selector) (view? : Option Network.View) (blocks : List BlockRef)
    (size : Nat → Nat) {p : BlockRef → Bool}
    (hp : ∀ b : BlockRef, b.identity.network = ids.network → p b = true) :
    ids.bound view? (blocks.filter p) size = ids.bound view? blocks size := by
  have hfind : ∀ s : Signal, (blocks.filter p).find? (fun b => b.identity = s.blockIn ids.network) =
      blocks.find? fun b => b.identity = s.blockIn ids.network := by
    intro s
    rw [List.find?_filter]
    refine List.find?_congr fun b _ => ?_
    rw [Bool.eq_iff_iff, decide_eq_true_eq]
    refine and_iff_right_of_imp fun hb => hp b ?_
    rw [of_decide_eq_true hb]
    rfl
  simp only [bound, List.find?_append, hfind]

end Selector

namespace Hub

variable {config : Config} {hub : Hub} {alive : Nat → Bool}

/-- The block of a signal is the first of its identity, in the shortcuts and then
in the list. -/
theorem blockOf_eq_find? (halive : ∀ b ∈ hub.blocks, alive b.id = true) {n : Network}
    (hset : n.Settled config hub.blocks) (s : Signal) :
    (hub.blockOf alive n n.name.text s).2 =
      (n.shortcuts.blocks ++ hub.blocks).find? fun b => b.identity = s.blockIn n.name := by
  have hof : ∀ b : BlockRef, b.identity.network = n.name →
      (b.identity.isOf s.block.text s.device.text s.number = true ↔ b.identity = s.blockIn n.name) :=
    fun b hnet => BlockIdentity.isOf_iff (j := s.blockIn n.name) hnet
  rw [blockOf_snd halive hset, List.find?_append]
  congr 1
  · refine List.find?_congr fun b hb => ?_
    rw [Bool.eq_iff_iff, decide_eq_true_eq, hof b (hset.linked b hb).2]
  · refine List.find?_congr fun b _ => ?_
    rw [Bool.eq_iff_iff, Bool.and_eq_true, beq_iff_eq, decide_eq_true_eq]
    constructor
    · rintro ⟨hnet, his⟩
      exact (hof b (Name.ext hnet)).1 his
    · intro hid
      have hnet : b.identity.network = n.name := congrArg BlockIdentity.network hid
      exact ⟨congrArg Name.text hnet, (hof b hnet).2 hid⟩

/-- What a selector is resolved to depends on its network, the blocks of the hub and
their sizes, and on nothing else. -/
theorem Sound.resolve_eq_bound (hs : hub.Sound config)
    (halive : ∀ b ∈ hub.blocks, alive b.id = true) (memory : Memory) (ids : Selector) :
    (hub.resolve alive memory ids).2.1 =
      ids.bound ((hub.registry.named? ids.network.text).map Network.view) hub.blocks memory.size := by
  rcases resolve_eq_or_locates hs.registry alive memory ids with hnone | ⟨h, k, n, s, hl⟩
  · rw [hnone, eq_comm, ← Option.not_isSome_iff_eq_none, Option.isSome_iff_exists]
    rintro ⟨b, hb⟩
    unfold Selector.bound at hb
    split at hb
    · cases hb
    · rename_i hne
      obtain ⟨v, hv, hb⟩ := Option.bind_eq_some_iff.1 hb
      obtain ⟨n, hn, rfl⟩ := Option.map_eq_some_iff.1 hv
      obtain ⟨s, hsel, -⟩ := Option.map_eq_some_iff.1 hb
      have htext : ids.signal.text ≠ "" := fun he => hne ((Name.isEmpty_iff _).2 he)
      obtain ⟨h, k, hl⟩ := exists_locates hs.registry htext hn hsel
      have hanswer := congrArg (fun out => out.2.1) hnone
      rw [hs.resolve_eq halive hl] at hanswer
      cases hanswer
  · have hne : ¬ ids.signal.isEmpty = true := fun he => hl.signal_ne_empty ((Name.isEmpty_iff _).1 he)
    rw [hs.resolve_eq halive hl]
    simp only [Binding.ofFound_eq, blockOf_eq_find? halive (hl.settled hs)]
    unfold Selector.bound
    rw [if_neg hne, hl.named? hs.registry, Option.map_some, Option.bind_some]
    have hfind : n.view.signals.find? (Network.selects ids) = some s := hl.find?_eq hs.registry
    rw [hfind, Option.map_some, ← hl.named]
    rfl

end Hub

/-! ### Numbers of blocks -/

/-- The block under another number. -/
def BlockRef.renumber (ρ : Nat → Nat) (b : BlockRef) : BlockRef := ⟨ρ b.id, b.identity⟩

def Network.View.renumber (ρ : Nat → Nat) (v : View) : View :=
  { v with linked := v.linked.map (.renumber ρ) }

def Binding.renumber (ρ : Nat → Nat) (b : Binding) : Binding :=
  { b with block := b.block.map (.renumber ρ) }

/-- The search for a block of an identity does not see the numbers of blocks. -/
theorem BlockRef.find?_renumber (blocks : List BlockRef) (ρ : Nat → Nat) (i : BlockIdentity)
    (fits fits' : Nat → Bool) (h : ∀ b ∈ blocks, b.identity = i → fits' (ρ b.id) = fits b.id) :
    ((blocks.map (renumber ρ)).find? fun b => b.identity = i).filter (fun b => fits' b.id) =
      ((blocks.find? fun b => b.identity = i).filter fun b => fits b.id).map (renumber ρ) := by
  have hmap : ((blocks.map (renumber ρ)).find? fun b => b.identity = i) =
      (blocks.find? fun b => b.identity = i).map (renumber ρ) := List.find?_map
  rw [hmap]
  cases hfind : blocks.find? fun b => b.identity = i with
  | none => rfl
  | some b =>
    have hid : decide (b.identity = i) = true :=
      List.find?_some (p := fun b : BlockRef => decide (b.identity = i)) hfind
    have hb := h b (List.mem_of_find?_eq_some hfind) (of_decide_eq_true hid)
    simp only [Option.map_some, Option.filter_some, renumber, hb]
    split <;> rfl

/-- What a selector is bound to is renumbered with the blocks, if these keep their
sizes. -/
theorem Selector.bound_renumber (ids : Selector) (view? : Option Network.View)
    (blocks : List BlockRef) (ρ : Nat → Nat) {size size' : Nat → Nat}
    (hsize : ∀ v, view? = some v → ∀ b ∈ v.linked ++ blocks, b.identity.network = ids.network →
      size' (ρ b.id) = size b.id) :
    ids.bound (view?.map (.renumber ρ)) (blocks.map (.renumber ρ)) size' =
      (ids.bound view? blocks size).map (.renumber ρ) := by
  unfold bound
  split
  · rfl
  · cases view? with
    | none => rfl
    | some v =>
      have hblock : ∀ s : Signal, ∀ b ∈ v.linked ++ blocks, b.identity = s.blockIn ids.network →
          decide (s.stop ≤ size' (ρ b.id)) = decide (s.stop ≤ size b.id) := by
        intro s b hb hid
        rw [hsize v rfl b hb (congrArg BlockIdentity.network hid)]
      simp only [Option.map_some, Option.bind_some, Option.map_map, Network.View.renumber,
        ← List.map_append]
      congr 1
      funext s
      exact congrArg (Binding.mk ids.network s) (BlockRef.find?_renumber _ ρ _
        (fun n => s.stop ≤ size n) (fun n => s.stop ≤ size' n) (hblock s))

/-! ### The caller's domain -/

/-- The selector, or the same one in the caller's own network if it leads out of the
caller's domain. -/
def Selector.within (own : NetworkName) (ids : Selector) : Selector :=
  if Hub.domainOf own.text = Hub.domainOf ids.network.text then ids else { ids with network := own }

theorem Selector.domainOf_within (own : NetworkName) (ids : Selector) :
    Hub.domainOf (ids.within own).network.text = Hub.domainOf own.text := by
  unfold within
  split
  · rename_i hsame
    exact hsame.symm
  · rfl

theorem Hub.resolvePath_within {own : NetworkName} (hown : Network.Accepts own) (alive : Nat → Bool)
    (hub : Hub) (memory : Memory) (path : String) :
    (hub.resolvePath alive memory path (some own.text)).2.1 =
      (hub.resolve alive memory ((hub.selector .signal path).within own)).2.1 := by
  have hids : (if !own.text.isEmpty && domainOf own.text !=
      domainOf (hub.selector .signal path).network.text then
        { hub.selector .signal path with network := .cut 24 own.text }
      else hub.selector .signal path) = (hub.selector .signal path).within own := by
    have hne : own.text.isEmpty = false := by
      rw [← Bool.not_eq_true, String.isEmpty_iff]
      exact hown.1
    unfold Selector.within
    simp only [hne, Bool.not_false, Bool.true_and, bne_iff_ne, Name.cut_text hown.2, ite_not, ne_eq]
  unfold resolvePath
  simp only [hids]
  split
  all_goals
    rename_i he
    rw [he]

namespace Site

open Hub (domainOf)

variable {config : Config} {s s' : Site} {domain : String} {ρ : Nat → Nat}

/-- Two sites agree on a domain: each network of it shows the same at both, and both
hold the same blocks in it, in the same order and of the same sizes. The blocks may
have other numbers at the second. -/
structure AgreesIn (domain : String) (ρ : Nat → Nat) (s s' : Site) : Prop where
  networks : ∀ name : NetworkName, domainOf name.text = domain →
    (s'.hub.registry.named? name.text).map Network.view =
      ((s.hub.registry.named? name.text).map Network.view).map (.renumber ρ)
  blocks : s'.hub.blocks.filter (fun b => domainOf b.identity.network.text = domain) =
    (s.hub.blocks.filter fun b => domainOf b.identity.network.text = domain).map (.renumber ρ)
  sizes : ∀ b ∈ s.hub.blocks, domainOf b.identity.network.text = domain →
    s'.memory.size (ρ b.id) = s.memory.size b.id

/-- A selector of the domain is bound alike at both. -/
theorem AgreesIn.resolve_eq (h : AgreesIn domain ρ s s') (hs : s.hub.Sound config)
    (hs' : s'.hub.Sound config) {ids : Selector} (hids : domainOf ids.network.text = domain) :
    (s'.hub.resolve s'.isAlive s'.memory ids).2.1 =
      (s.hub.resolve s.isAlive s.memory ids).2.1.map (.renumber ρ) := by
  have hinside : ∀ b : BlockRef, b.identity.network = ids.network →
      domainOf b.identity.network.text = domain := fun b hb => hb ▸ hids
  have hcounts : ∀ b : BlockRef, b.identity.network = ids.network →
      decide (domainOf b.identity.network.text = domain) = true :=
    fun b hb => decide_eq_true (hinside b hb)
  rw [hs'.resolve_eq_bound (fun b => s'.isAlive_of_mem), hs.resolve_eq_bound fun b => s.isAlive_of_mem,
    h.networks ids.network hids, ← ids.bound_filter _ s'.hub.blocks _ hcounts, h.blocks,
    ← ids.bound_filter _ s.hub.blocks _ hcounts]
  refine ids.bound_renumber _ _ ρ fun v hv b hb hnet => h.sizes b ?_ (hinside b hnet)
  -- The shortcuts of a network lead to blocks of the list.
  rcases List.mem_append.1 hb with hlinked | hlisted
  · obtain ⟨n, hn, rfl⟩ := Option.map_eq_some_iff.1 hv
    obtain ⟨k, hk, -⟩ := (Registry.named?_eq_some_iff hs.registry).1 hn
    exact ((hs.settled k n hk).linked b hlinked).1
  · exact (List.mem_filter.1 hlisted).1

theorem AgreesIn.resolvePath_eq {own : NetworkName} (h : AgreesIn (domainOf own.text) ρ s s')
    (hs : s.hub.Sound config) (hs' : s'.hub.Sound config) (hown : Network.Accepts own) (path : String) :
    (s'.resolvePath path (some own.text)).2.1 =
      (s.resolvePath path (some own.text)).2.1.map (.renumber ρ) := by
  have hsame : s'.hub.selector .signal path = s.hub.selector .signal path := by
    unfold Hub.selector
    rw [hs'.configured, hs.configured]
  rw [resolvePath_answer, resolvePath_answer, Hub.resolvePath_within hown,
    Hub.resolvePath_within hown, hsame]
  exact h.resolve_eq hs hs' (Selector.domainOf_within _ _)

/-- What a path is bound to for a caller is in the caller's domain, and its block is in
the same network. -/
theorem domainOf_bound (hs : s.hub.Sound config) {own : NetworkName} (hown : Network.Accepts own)
    {path : String} {b : Binding} (hb : (s.resolvePath path (some own.text)).2.1 = some b) :
    domainOf b.network.text = domainOf own.text ∧
      ∀ m, b.block = some m → m.identity.network = b.network := by
  have hbound := hb
  rw [resolvePath_answer, Hub.resolvePath_within hown] at hbound
  refine ⟨?_, fun m hm => ?_⟩
  · have hnetwork : b.network = ((s.hub.selector .signal path).within own).network := by
      rw [hs.resolve_eq_bound fun b => s.isAlive_of_mem] at hbound
      unfold Selector.bound at hbound
      split at hbound
      · cases hbound
      · obtain ⟨v, -, hv⟩ := Option.bind_eq_some_iff.1 hbound
        obtain ⟨t, -, rfl⟩ := Option.map_eq_some_iff.1 hv
        rfl
    rw [hnetwork, Selector.domainOf_within]
  · rw [(hs.block_of_bound (fun b => s.isAlive_of_mem) hbound hm).2.1]
    rfl

/-- **A path is bound in the domain of its caller.** After every run, a path that a
caller in a network resolves is bound within the caller's domain, block and all, and
another site that agrees on that domain gives the same answer. The caller's network
is of a name that a network can have. -/
theorem confined_run (config : Config) (actions : List Action) (path : String)
    (own : NetworkName) (hown : Network.Accepts own) :
    (∀ b, (((ofConfig config).run actions).resolvePath path (some own.text)).2.1 = some b →
      domainOf b.network.text = domainOf own.text ∧
        ∀ m, b.block = some m → m.identity.network = b.network) ∧
    ∀ (actions' : List Action) (ρ : Nat → Nat),
      AgreesIn (domainOf own.text) ρ ((ofConfig config).run actions)
        ((ofConfig config).run actions') →
      (((ofConfig config).run actions').resolvePath path (some own.text)).2.1 =
        (((ofConfig config).run actions).resolvePath path (some own.text)).2.1.map (.renumber ρ) := by
  have hsound : ∀ actions, ((ofConfig config).run actions).hub.Sound config :=
    sound_run (s := ofConfig config) (Hub.sound_ofConfig config)
  refine ⟨fun b hb => domainOf_bound (hsound actions) hown hb, fun actions' ρ hagrees => ?_⟩
  exact hagrees.resolvePath_eq (hsound actions) (hsound actions') hown path

/-- A device comes in another network before the one of `tableFirst`. -/
def foreignFirst : List Action :=
  [.publish { infoBlock "gina" 1 with identity := .ofNames "info" "gina" 1 "x" }, .arrive 0,
    .publish (infoBlock "gina" 1), .publish (dataBlock "gina" 1), .arrive 1, .arrive 2]

theorem run_foreignFirst :
    ((ofConfig .default).run foreignFirst).hub.blocks =
      [⟨0, .ofNames "info" "gina" 1 "x"⟩, ⟨1, (infoBlock "gina" 1).identity⟩,
        ⟨2, (dataBlock "gina" 1).identity⟩] ∧
    ((ofConfig .default).run foreignFirst).hub.registry.networks.items.map
      (fun n => n.name.text) = ["x", "n"] ∧
    (((ofConfig .default).run foreignFirst).hub.registry.named? "n").map Network.view =
      some ⟨[.ofNames "t" "exp" "gina" 1 0 1 .ushort],
        [⟨1, (infoBlock "gina" 1).identity⟩, ⟨2, (dataBlock "gina" 1).identity⟩]⟩ := by
  decide +kernel

/-- Without the other network, there are the same blocks under other numbers. -/
theorem renumbered_tableFirst :
    ((ofConfig .default).run tableFirst).hub.registry.networks.items.map
      (fun n => n.name.text) = ["n"] ∧
    (((ofConfig .default).run tableFirst).hub.registry.named? "n").map Network.view =
      some ⟨[.ofNames "t" "exp" "gina" 1 0 1 .ushort],
        [⟨0, (infoBlock "gina" 1).identity⟩, ⟨1, (dataBlock "gina" 1).identity⟩]⟩ ∧
    ((ofConfig .default).run tableFirst).memory.size 0 =
      ((ofConfig .default).run foreignFirst).memory.size 1 ∧
    ((ofConfig .default).run tableFirst).memory.size 1 =
      ((ofConfig .default).run foreignFirst).memory.size 2 := by decide +kernel

/-- Networks of other names than these are not there. -/
theorem named?_eq_none_of_names {r : Registry} (hr : r.WellFormed) {names : List String}
    (hnames : r.networks.items.map (fun n => n.name.text) = names) {name : String}
    (hname : name ∉ names) : r.named? name = none := by
  refine (Registry.named?_eq_none_iff hr).2 fun h n hn htext => hname ?_
  rw [← hnames, ← htext]
  exact List.mem_map_of_mem ((Index.mem_items hr.networks n).2 ⟨h, hn⟩)

/-- The networks of the device's domain and its blocks are as if no other had come. -/
theorem agreesIn_foreignFirst : AgreesIn "n" (· - 1) ((ofConfig .default).run foreignFirst)
    ((ofConfig .default).run tableFirst) where
  networks name hname := by
    have hsound : ∀ actions, ((ofConfig .default).run actions).hub.registry.WellFormed := fun actions =>
      (sound_run (s := ofConfig .default) (Hub.sound_ofConfig .default) actions).registry
    by_cases htext : name.text = "n"
    · rw [htext, run_foreignFirst.2.2, renumbered_tableFirst.2.1]
      rfl
    · have hforeign : name.text ≠ "x" := by
        intro hx
        rw [hx] at hname
        exact absurd hname (by decide)
      have hnone : name.text ∉ ["x", "n"] := by
        rw [List.mem_cons, List.mem_singleton]
        exact not_or.2 ⟨hforeign, htext⟩
      have hnone' : name.text ∉ ["n"] := fun hn => htext (List.mem_singleton.1 hn)
      rw [named?_eq_none_of_names (hsound foreignFirst) run_foreignFirst.2.1 hnone,
        named?_eq_none_of_names (hsound tableFirst) renumbered_tableFirst.1 hnone']
      rfl
  blocks := by
    rw [run_foreignFirst.1, run_tableFirst.1]
    rfl
  sizes b hb hdomain := by
    rw [run_foreignFirst.1, List.mem_cons, List.mem_cons, List.mem_singleton] at hb
    rcases hb with rfl | rfl | rfl
    · exact absurd hdomain (by decide)
    · exact renumbered_tableFirst.2.2.1
    · exact renumbered_tableFirst.2.2.2

/-- The network of the device. -/
def ginaNetwork : NetworkName := .cut 24 "n"

theorem resolvePath_foreignFirst : (((ofConfig .default).run foreignFirst).resolvePath
    "t.exp.gina1.x" (some ginaNetwork.text)).2.1 =
      some ⟨ginaNetwork, .ofNames "t" "exp" "gina" 1 0 1 .ushort,
        some ⟨2, (dataBlock "gina" 1).identity⟩⟩ := by
  have hs := sound_run (s := ofConfig .default) (Hub.sound_ofConfig .default) foreignFirst
  have hown : Network.Accepts ginaNetwork := by decide
  have hselector : (((ofConfig .default).run foreignFirst).hub.selector .signal
      "t.exp.gina1.x").within ginaNetwork = .ofNames "t" "exp" "gina" 1 "n" := by
    unfold Hub.selector
    rw [hs.configured]
    decide
  have hname : (Selector.ofNames "t" "exp" "gina" 1 "n").network.text = "n" := text_network
  rw [resolvePath_answer, Hub.resolvePath_within hown, hselector,
    hs.resolve_eq_bound fun b => isAlive_of_mem _, hname, run_foreignFirst.2.2, run_foreignFirst.1]
  decide +kernel

/-- A path to the other network is bound in the caller's own, as if the other were not
there. -/
theorem confined_run_foreignFirst : Network.Accepts ginaNetwork ∧
    domainOf ginaNetwork.text = "n" ∧ (dataBlock "gina" 1).identity.network = ginaNetwork ∧
    (((ofConfig .default).run tableFirst).resolvePath "t.exp.gina1.x" (some ginaNetwork.text)).2.1 =
      some ⟨ginaNetwork, .ofNames "t" "exp" "gina" 1 0 1 .ushort,
        some ⟨1, (dataBlock "gina" 1).identity⟩⟩ := by
  have hown : Network.Accepts ginaNetwork := by decide
  have hdomain : domainOf ginaNetwork.text = "n" := by decide
  obtain ⟨hinside, hsame⟩ := confined_run .default foreignFirst "t.exp.gina1.x" ginaNetwork hown
  have hagrees : AgreesIn (domainOf ginaNetwork.text) (· - 1) ((ofConfig .default).run foreignFirst)
      ((ofConfig .default).run tableFirst) := by
    rw [hdomain]
    exact agreesIn_foreignFirst
  have hanswer := hsame tableFirst (· - 1) hagrees
  rw [resolvePath_foreignFirst] at hanswer
  exact ⟨hown, hdomain, (hinside _ resolvePath_foreignFirst).2 _ rfl, hanswer⟩

end Site
end SignalRegistry
