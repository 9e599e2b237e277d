/-
# A registry is a map from names to networks

The networks of a registry have distinct names, none of them empty
(`Registry.WellFormed`), so that a name leads to one network at most. Every
operation changes the network of one name and leaves the others alone:
`Registry.Updates` says what became of it. What an operation tells the outside
is the list of notices in its journal.

Key definitions: `Registry.WellFormed`, `Registry.Updates`,
`Registry.provided`.
Key theorems: `Registry.updates_of_get?`, `Registry.registerDevice_spec`,
`Registry.linkBlock_spec`, `Registry.forget_spec`, `Registry.eraseNetwork_spec`.
-/
import SignalRegistry.Proofs.Network

namespace SignalRegistry

namespace Journal

@[simp] theorem notices_nil : notices [] = [] := rfl

@[simp] theorem notices_ofRemark (r : Remark) : (ofRemark r).notices = [] := rfl

@[simp] theorem notices_remark_cons (r : Remark) (j : Journal) :
    notices (.remark r :: j) = j.notices := rfl

@[simp] theorem notices_notice_cons (e : Event) (n : Option Network) (j : Journal) :
    notices (.notice e n :: j) = (e, n) :: j.notices := rfl

end Journal

namespace Registry

variable {r r' r'' : Registry} {h : Handle} {n : Network} {name : String}

/-- All networks have the property. -/
def Each (r : Registry) (P : Network → Prop) : Prop := ∀ h n, r.networks.get? h = some n → P n

/-- The table is sound, names are distinct and not empty, and so are the
tables of the networks. -/
structure WellFormed (r : Registry) : Prop where
  networks : r.networks.WellFormed
  names : r.networks.Separates fun n => n.name.text
  named : r.Each fun n => n.name.text ≠ ""
  each : r.Each Network.WellFormed

theorem wellFormed_empty (config : Config) : ({ config := config } : Registry).WellFormed where
  networks := Index.WellFormed.empty
  names := Index.Separates.empty
  named h n hn := by simp at hn
  each h n hn := by simp at hn

/-! ### Names -/

theorem handleOf?_eq_some_iff (hr : r.WellFormed) :
    r.handleOf? name = some h ↔ ∃ n, r.networks.get? h = some n ∧ n.name.text = name := by
  constructor
  · intro hh
    obtain ⟨n, hn, hkey, -⟩ := Index.find?_eq_some hr.networks hh
    exact ⟨n, hn, hkey⟩
  · rintro ⟨n, hn, hkey⟩
    obtain ⟨k, hk⟩ := Option.isSome_iff_exists.1 
      (Index.find?_isSome (p := fun _ => true) hr.networks hn hkey rfl)
    obtain ⟨m, hm, hkey', -⟩ := Index.find?_eq_some hr.networks hk
    have hkh : k = h := hr.names k h m n hm hn (hkey'.trans hkey.symm)
    exact hkh ▸ hk

theorem named?_eq_some_iff (hr : r.WellFormed) :
    r.named? name = some n ↔ ∃ h, r.networks.get? h = some n ∧ n.name.text = name := by
  unfold named?
  rw [Option.bind_eq_some_iff]
  constructor
  · rintro ⟨h, hh, hn⟩
    obtain ⟨m, hm, hkey⟩ := (handleOf?_eq_some_iff hr).1 hh
    rw [hn, Option.some_inj] at hm
    exact ⟨h, hn, hm ▸ hkey⟩
  · rintro ⟨h, hn, hkey⟩
    exact ⟨h, (handleOf?_eq_some_iff hr).2 ⟨n, hn, hkey⟩, hn⟩

theorem named?_eq_none_iff (hr : r.WellFormed) :
    r.named? name = none ↔ ∀ h n, r.networks.get? h = some n → n.name.text ≠ name := by
  rw [Option.eq_none_iff_forall_ne_some]
  constructor
  · exact fun hne h n hn hkey => hne n ((named?_eq_some_iff hr).2 ⟨h, hn, hkey⟩)
  · intro hne n hn
    obtain ⟨h, hn, hkey⟩ := (named?_eq_some_iff hr).1 hn
    exact hne h n hn hkey

theorem named?_of_handleOf? (hr : r.WellFormed) (hh : r.handleOf? name = some h) :
    ∃ n, r.networks.get? h = some n ∧ n.name.text = name ∧ r.named? name = some n := by
  obtain ⟨n, hn, hkey⟩ := (handleOf?_eq_some_iff hr).1 hh
  exact ⟨n, hn, hkey, (named?_eq_some_iff hr).2 ⟨h, hn, hkey⟩⟩

theorem named?_eq_none_of_handleOf? (hh : r.handleOf? name = none) : r.named? name = none := by
  unfold named?
  rw [hh, Option.bind_none]

theorem locate?_eq_some {ids : Selector} {k : Handle} (hl : r.locate? ids = some (h, k)) :
    r.handleOf? ids.network.text = some h ∧
      ∃ n, r.networks.get? h = some n ∧ n.firstMatch? ids = some k := by
  simp only [locate?, Option.bind_eq_bind, Option.bind_eq_some_iff, Option.pure_def, Option.some_inj,
    Prod.mk.injEq] at hl
  obtain ⟨h', hh, n, hn, k', hk, rfl, rfl⟩ := hl
  exact ⟨hh, n, hn, hk⟩

/-- A signal is located in the network that the selector names. -/
theorem name_of_locate? (hr : r.WellFormed) {ids : Selector} {k : Handle}
    (hl : r.locate? ids = some (h, k)) (hn : r.networks.get? h = some n) :
    n.name.text = ids.network.text := by
  obtain ⟨m, hm, hkey⟩ := (handleOf?_eq_some_iff hr).1 (locate?_eq_some hl).1
  rw [hn, Option.some_inj] at hm
  exact hm ▸ hkey

theorem each_iff (hr : r.WellFormed) {P : Network → Prop} :
    r.Each P ↔ ∀ name n, r.named? name = some n → P n := by
  constructor
  · intro he name n hn
    obtain ⟨h, hn, -⟩ := (named?_eq_some_iff hr).1 hn
    exact he h n hn
  · exact fun he h n hn => he n.name.text n ((named?_eq_some_iff hr).2 ⟨h, hn, rfl⟩)

/-! ### Updates of one network -/

/-- `r'` is `r` with `n?` in place of the network of the name, if any. Networks
of other names are the same, under the same handles. -/
structure Updates (r r' : Registry) (name : String) (n? : Option Network) : Prop where
  wellFormed : r'.WellFormed
  config : r'.config = r.config
  named : ∀ name', r'.named? name' = if name' = name then n? else r.named? name'
  others : ∀ h n, n.name.text ≠ name → (r'.networks.get? h = some n ↔ r.networks.get? h = some n)

namespace Updates

variable {n? m? : Option Network}

theorem refl (hr : r.WellFormed) (hn : r.named? name = n?) : r.Updates r name n? where
  wellFormed := hr
  config := rfl
  named name' := by
    split
    · rename_i he
      rw [he, hn]
    · rfl
  others h n hne := Iff.rfl

theorem trans (h₁ : r.Updates r' name n?) (h₂ : r'.Updates r'' name m?) : r.Updates r'' name m? where
  wellFormed := h₂.wellFormed
  config := h₂.config.trans h₁.config
  named name' := by
    rw [h₂.named, h₁.named]
    split <;> rfl
  others h n hne := (h₂.others h n hne).trans (h₁.others h n hne)

theorem each {P : Network → Prop} (hu : r.Updates r' name n?) (hr : r.WellFormed) (he : r.Each P)
    (hn : ∀ n, n? = some n → P n) : r'.Each P := by
  rw [each_iff hu.wellFormed]
  intro name' n hn'
  rw [hu.named] at hn'
  split at hn'
  · exact hn n hn'
  · exact (each_iff hr).1 he name' n hn'

end Updates

/-- A change of the item of one handle, the only one that leads to a network
of the name, is an update of that network. -/
theorem updates_of_get? {n? : Option Network} (hr : r.WellFormed) (hw : r'.networks.WellFormed)
    (hc : r'.config = r.config)
    (hget : ∀ k, r'.networks.get? k = if h = k then n? else r.networks.get? k)
    (hhome : ∀ k m, r.networks.get? k = some m → (m.name.text = name ↔ h = k))
    (hnew : ∀ m, n? = some m → m.name.text = name ∧ m.WellFormed) (hne : name ≠ "") :
    r.Updates r' name n? := by
  have hcases : ∀ k m, r'.networks.get? k = some m →
      h = k ∧ n? = some m ∧ m.name.text = name ∨
        h ≠ k ∧ r.networks.get? k = some m ∧ m.name.text ≠ name := by
    intro k m hm
    rw [hget] at hm
    split at hm
    · rename_i hk
      exact Or.inl ⟨hk, hm, (hnew m hm).1⟩
    · rename_i hk
      exact Or.inr ⟨hk, hm, fun hkey => hk ((hhome k m hm).1 hkey)⟩
  have hr' : r'.WellFormed := by
    refine ⟨hw, fun k k' m m' hm hm' hkey => ?_, fun k m hm => ?_, fun k m hm => ?_⟩
    · simp only at hkey
      rcases hcases k m hm with ⟨hk, -, hname⟩ | ⟨-, hm, hname⟩
      · rcases hcases k' m' hm' with ⟨hk', -, -⟩ | ⟨-, -, hname'⟩
        · exact hk.symm.trans hk'
        · exact absurd (hkey.symm.trans hname) hname'
      · rcases hcases k' m' hm' with ⟨-, -, hname'⟩ | ⟨-, hm', -⟩
        · exact absurd (hkey.trans hname') hname
        · exact hr.names k k' m m' hm hm' hkey
    · rcases hcases k m hm with ⟨-, -, hname⟩ | ⟨-, hm, -⟩
      · exact hname ▸ hne
      · exact hr.named k m hm
    · rcases hcases k m hm with ⟨-, hn, -⟩ | ⟨-, hm, -⟩
      · exact (hnew m hn).2
      · exact hr.each k m hm
  refine ⟨hr', hc, fun name' => Option.ext fun m => ?_, fun k m hne => ⟨fun hm => ?_, fun hm => ?_⟩⟩
  rw [named?_eq_some_iff hr']
  constructor
  · rintro ⟨k, hm, rfl⟩
    rcases hcases k m hm with ⟨-, hn, hname⟩ | ⟨-, hm, hname⟩
    · rwa [if_pos hname]
    · rw [if_neg hname]
      exact (named?_eq_some_iff hr).2 ⟨k, hm, rfl⟩
  · intro hm
    split at hm
    · rename_i he
      exact ⟨h, by rw [hget, if_pos rfl, hm], (hnew m hm).1.trans he.symm⟩
    · rename_i he
      obtain ⟨k, hm, hkey⟩ := (named?_eq_some_iff hr).1 hm
      have hk : h ≠ k := fun hk => he (hkey.symm.trans ((hhome k m hm).2 hk))
      exact ⟨k, by rw [hget, if_neg hk, hm], hkey⟩
  · rcases hcases k m hm with ⟨-, -, hname⟩ | ⟨-, hm, -⟩
    · exact absurd hname hne
    · exact hm
  · have hk : h ≠ k := fun hk => hne ((hhome k m hm).2 hk)
    rw [hget, if_neg hk, hm]

/-- The name of a network leads to its own handle only. -/
theorem name_iff (hr : r.WellFormed) (hn : r.networks.get? h = some n) {k : Handle} {m : Network}
    (hm : r.networks.get? k = some m) : m.name.text = n.name.text ↔ h = k := by
  constructor
  · exact fun hkey => hr.names h k n m hn hm hkey.symm
  · rintro rfl
    rw [hn, Option.some_inj] at hm
    rw [hm]

theorem updates_modifyNetwork (hr : r.WellFormed) (hn : r.networks.get? h = some n)
    {f : Network → Network} (hname : (f n).name = n.name) (hf : (f n).WellFormed) :
    r.Updates (r.modifyNetwork h f) n.name.text (some (f n)) := by
  have hget : ∀ k, (r.modifyNetwork h f).networks.get? k =
      if h = k then some (f n) else r.networks.get? k := by
    intro k
    refine (Index.get?_modify r.networks h k f).trans ?_
    split
    · rename_i hk
      rw [← hk, hn, Option.map_some]
    · rfl
  refine updates_of_get? hr (hr.networks.modify h f fun m hm => ?_) rfl hget
    (fun k m => name_iff hr hn) (fun m hm => ?_) (hr.named h n hn)
  · rw [hn, Option.some_inj] at hm
    exact hm ▸ congrArg Name.text hname
  · obtain rfl := Option.some_inj.1 hm
    exact ⟨congrArg Name.text hname, hf⟩

theorem get?_modifyNetwork (hn : r.networks.get? h = some n) (f : Network → Network) :
    (r.modifyNetwork h f).networks.get? h = some (f n) := by
  refine (Index.get?_modify r.networks h h f).trans ?_
  rw [if_pos rfl, hn, Option.map_some]

theorem modifyNetwork_self (hg : r.networks.get? h = some n) : (r.modifyNetwork h fun _ => n) = r := by
  obtain ⟨link, hlink, rfl⟩ := Option.map_eq_some_iff.1 hg
  have harena : r.networks.arena.modify h (fun other => { other with item := link.item }) =
      r.networks.arena := Arena.modify_self hlink rfl
  unfold modifyNetwork Index.modify
  rw [harena]

theorem updates_erase (hr : r.WellFormed) (hn : r.networks.get? h = some n) :
    r.Updates { r with networks := (r.networks.erase h).1 } n.name.text none :=
  updates_of_get? hr (hr.networks.erase h) rfl (Index.get?_erase r.networks h)
    (fun k m => name_iff hr hn) (fun m hm => by cases hm) (hr.named h n hn)

theorem updates_insert (hr : r.WellFormed) (hf : r.named? n.name.text = none)
    (hne : n.name.text ≠ "") (hn : n.WellFormed) :
    r.Updates { r with networks := (r.networks.insert n).1 } n.name.text (some n) := by
  refine updates_of_get? hr (hr.networks.insert n) rfl (Index.get?_insert hr.networks n)
    (fun k m hm => ?_) (fun m hm => ?_) hne
  · refine iff_of_false ((named?_eq_none_iff hr).1 hf k m hm) ?_
    rintro rfl
    rw [Index.get?_insert_snd hr.networks] at hm
    cases hm
  · obtain rfl := Option.some_inj.1 hm
    exact ⟨rfl, hn⟩

/-! ### What the operations do -/

/-- The network that is found under a name, or created if there is none. -/
def provided (r : Registry) (name : String) : Except Error Network :=
  match r.named? name with
  | some n => .ok n
  | none => Network.ofName name

theorem provided_eq_ok (hr : r.WellFormed) (hn : r.provided name = .ok n) :
    n.name.text = name ∧ n.WellFormed ∧ (r.named? name = some n ∨
      r.named? name = none ∧ Network.ofName name = .ok n) := by
  unfold provided at hn
  split at hn
  · rename_i m hm
    obtain rfl := Except.ok.inj hn
    obtain ⟨h, hg, hkey⟩ := (named?_eq_some_iff hr).1 hm
    exact ⟨hkey, hr.each h m hg, Or.inl hm⟩
  · rename_i hm
    exact ⟨(Network.ofName_eq_ok hn).2.1, Network.wellFormed_ofName hn, Or.inr ⟨hm, hn⟩⟩

/-- No network is provided without a name. -/
theorem ne_empty_of_provided (hr : r.WellFormed) (hn : r.provided name = .ok n) : name ≠ "" := by
  obtain ⟨-, -, hnamed | ⟨-, hnew⟩⟩ := provided_eq_ok hr hn
  · obtain ⟨h, hg, hkey⟩ := (named?_eq_some_iff hr).1 hnamed
    exact hkey ▸ hr.named h n hg
  · exact (Network.ofName_eq_ok hnew).2.2

/-- An event with the network it concerns. -/
abbrev Notice := Event × Option Network

/-- The notice that a network has come. -/
def greeting (n : Network) : Notice := ({ kind := .newNetwork, network := n.name }, some n)

/-- The notice that a network has gone. -/
def farewell (n : Network) : Notice := ({ kind := .networkDisconnected, network := n.name }, some n)

/-- The notice of a device of a network. -/
def deviceNotice (kind : Event.Kind) (i : BlockIdentity) (n : Network) : Notice :=
  (.ofBlock kind i, some n)

theorem notice_network (hn : r.networks.get? h = some n) (kind : Event.Kind) :
    r.notice kind (some h) none = .notice { kind := kind, network := n.name } (some n) := by
  simp only [notice, Option.bind_some, hn, Option.map_some, Option.getD_some,
    Event.ofNames_network, n.cut_name]

theorem notice_block (hn : r.networks.get? h = some n) (kind : Event.Kind) (i : BlockIdentity) :
    r.notice kind (some h) (some i) = .notice (.ofBlock kind i) (some n) := by
  simp only [notice, Option.bind_some, hn]

/-- A notice of a device names the network of the device. -/
theorem network_deviceNotice {i : BlockIdentity} (hname : n.name.text = i.network.text)
    (kind : Event.Kind) : (deviceNotice kind i n).1.network = i.network := by
  show Name.cut 24 i.network.text = i.network
  rw [← hname, n.cut_name]
  exact Name.ext hname

theorem ensureNetwork_error {e : Error} (hr : r.WellFormed) (he : r.provided name = .error e) :
    r.ensureNetwork name = (r, .error e, []) := by
  unfold provided at he
  unfold ensureNetwork
  cases hh : r.handleOf? name with
  | some h =>
    obtain ⟨n, -, -, hn⟩ := named?_of_handleOf? hr hh
    rw [hn] at he
    cases he
  | none =>
    rw [named?_eq_none_of_handleOf? hh] at he
    simp only at he
    simp only [he]

theorem ensureNetwork_ok (hr : r.WellFormed) (hn : r.provided name = .ok n) :
    ∃ r' h j, r.ensureNetwork name = (r', .ok h, j) ∧ j.notices = [] ∧
      r'.networks.get? h = some n ∧ r.Updates r' name (some n) := by
  unfold provided at hn
  unfold ensureNetwork
  cases hh : r.handleOf? name with
  | some h =>
    obtain ⟨m, hm, hkey, hnamed⟩ := named?_of_handleOf? hr hh
    rw [hnamed] at hn
    obtain rfl := Except.ok.inj hn
    exact ⟨r, h, [], rfl, rfl, hm, .refl hr hnamed⟩
  | none =>
    have hnone := named?_eq_none_of_handleOf? hh
    rw [hnone] at hn
    simp only at hn
    obtain ⟨-, rfl, hne⟩ := Network.ofName_eq_ok hn
    refine ⟨{ r with networks := (r.networks.insert n).1 }, (r.networks.insert n).2,
      .ofRemark (.networkCreated n.name.text), by simp only [hn], rfl, ?_,
      updates_insert hr hnone hne (Network.wellFormed_ofName hn)⟩
    exact (Index.get?_insert hr.networks n _).trans (if_pos rfl)

/-- Removing a network disconnects an active one. -/
theorem eraseNetwork_spec (hr : r.WellFormed) (hn : r.networks.get? h = some n) :
    r.Updates (r.eraseNetwork h).1 n.name.text none ∧
      (r.eraseNetwork h).2.2.notices = if n.phase = .active then [farewell n] else [] := by
  have he : r.eraseNetwork h = ({ r with networks := (r.networks.erase h).1 }, .ok n.clear,
      (if n.phase = .active then [r.notice .networkDisconnected (some h) none] else []) ++
        Journal.ofRemark (.networkRemoved n.name)) := by
    unfold eraseNetwork
    rw [hn]
  rw [he]
  refine ⟨updates_erase hr hn, ?_⟩
  rw [notice_network hn]
  split <;> simp [farewell]

theorem eraseNetwork_none (hn : r.networks.get? h = none) :
    r.eraseNetwork h = (r, .error (.notFound .network), []) := by
  unfold eraseNetwork
  rw [hn]

/-- A block is linked to the network of its name. -/
theorem linkBlock_spec (hr : r.WellFormed) (block : BlockRef) :
    r.Updates (r.linkBlock block).1 block.identity.network.text
      ((r.named? block.identity.network.text).map fun n => (n.link block).1) := by
  unfold linkBlock
  split
  · rename_i hh
    have hnone := named?_eq_none_of_handleOf? hh
    exact .refl hr (by rw [hnone, Option.map_none])
  · rename_i h hh
    obtain ⟨n, hn, hkey, hnamed⟩ := named?_of_handleOf? hr hh
    rw [hnamed, Option.map_some, ← hkey]
    exact updates_modifyNetwork hr hn (n.link_name block) ((hr.each h n hn).link block)

/-- No network is provided under a name that none can have. -/
theorem accepts_of_provided (hr : r.WellFormed) {name : NetworkName}
    (hn : r.provided name.text = .ok n) : Network.Accepts name := by
  obtain ⟨hname, -, -⟩ := provided_eq_ok hr hn
  refine ⟨ne_empty_of_provided hr hn, ?_⟩
  rw [← Name.ext hname]
  exact n.short

/-- The network of a name is there or can be created, unless no network can have
that name. -/
theorem provided_eq_error {name : NetworkName} {e : Error}
    (hp : r.provided name.text = .error e) :
    ¬ Network.Accepts name ∧ ∃ why, e = .malformed why := by
  unfold provided at hp
  split at hp
  · cases hp
  · unfold Network.ofName at hp
    simp only at hp
    split at hp
    · rename_i hcut
      exact ⟨fun ha => hcut (congrArg Name.text (Name.cut_text ha.2)), _,
        (Except.error.inj hp).symm⟩
    · split at hp
      · rename_i hempty
        exact ⟨fun ha => ha.1 (String.isEmpty_iff.1 hempty), _, (Except.error.inj hp).symm⟩
      · cases hp

/-- The signals that a table declares for the blocks of a device and that fit
them. -/
theorem mem_placed_declared_iff {i : BlockIdentity} {sizeOf : String → Option Nat}
    {layouts : List Layout} {s : Signal} : s ∈ Network.placed (declared i sizeOf layouts) ↔
      ∃ l ∈ layouts, ∃ p ∈ l.signals, s = signalOf i l.block p ∧ fits s (sizeOf l.block) = true := by
  rw [Network.mem_placed_iff]
  unfold declared
  constructor
  · rintro ⟨size, hmem, hfits⟩
    obtain ⟨l, hl, hmem⟩ := List.mem_flatMap.1 hmem
    obtain ⟨p, hp, he⟩ := List.mem_map.1 hmem
    cases he
    exact ⟨l, hl, p, hp, rfl, hfits⟩
  · rintro ⟨l, hl, p, hp, rfl, hfits⟩
    exact ⟨sizeOf l.block,
      List.mem_flatMap.2 ⟨l, hl, List.mem_map.2 ⟨p, hp, rfl⟩⟩, hfits⟩

/-- The signals of a table have short names. -/
theorem isShort_of_mem_placed {i : BlockIdentity} {sizeOf : String → Option Nat}
    {layouts : List Layout} {s : Signal} (hs : s ∈ Network.placed (declared i sizeOf layouts)) :
    s.IsShort := by
  obtain ⟨l, -, p, -, rfl, -⟩ := mem_placed_declared_iff.1 hs
  exact ⟨Name.isShort_cut _, Name.isShort_cut _, Name.isShort_cut _⟩

/-- A registration that succeeds makes the network of the device active, and
announces it unless it was active before. One that fails does nothing: it is
the table or the name of the network that is malformed. -/
theorem registerDevice_spec (hr : r.WellFormed) (alive : Nat → Bool) (info : BlockRef)
    (content : Octets) (sizeOf : String → Option Nat) :
    (∃ why j, (Layout.parse content = .error why ∨
          ¬ Network.Accepts info.identity.network) ∧
        r.registerDevice alive info content sizeOf = (r, .error (.malformed why), j) ∧
        j.notices = []) ∨
      ∃ r' layouts j n m, r.registerDevice alive info content sizeOf = (r', .ok layouts, j) ∧
        Layout.parse content = .ok layouts ∧
        r.provided info.identity.network.text = .ok n ∧
        m = (register alive n info (declared info.identity sizeOf layouts)).1 ∧
        r.Updates r' info.identity.network.text (some m) ∧
        j.notices = (if n.phase = .active then [] else [greeting m]) ++
          [deviceNotice .newDevice info.identity m] := by
  cases hl : Layout.parse content with
  | error why =>
    left
    refine ⟨why, .ofRemark (.infoRejected info.identity (.malformed why)), Or.inl rfl, ?_, rfl⟩
    simp only [registerDevice, hl]
  | ok layouts =>
    cases hp : r.provided info.identity.network.text with
    | error e =>
      left
      obtain ⟨hname, why, rfl⟩ := provided_eq_error hp
      refine ⟨why, [], Or.inr hname, ?_, rfl⟩
      simp only [registerDevice, hl, ensureNetwork_error hr hp]
    | ok n =>
      right
      obtain ⟨r₁, h, j, he, hj, hg, hu⟩ := ensureNetwork_ok hr hp
      obtain ⟨hname, hwf, -⟩ := provided_eq_ok hr hp
      let signals := declared info.identity sizeOf layouts
      let m := (register alive n info signals).1
      let r₂ := r₁.modifyNetwork h fun _ => m
      have hg' : r₂.networks.get? h = some m := get?_modifyNetwork hg _
      have hum : r₁.Updates r₂ n.name.text (some m) :=
        updates_modifyNetwork hu.wellFormed hg Network.register_name hwf.register
      have hrd : r.registerDevice alive info content sizeOf = (r₂, .ok layouts,
          j ++ Journal.ofRemarks (register alive n info signals).2 ++
            (if n.phase = .active then [] else [r₂.notice .newNetwork (some h) none]) ++
            [r₂.notice .newDevice (some h) (some info.identity)]) := by
        simp only [registerDevice, hl, he, hg]
        rfl
      rw [hname] at hum
      refine ⟨r₂, layouts, _, n, m, hrd, rfl, rfl, rfl, hu.trans hum, ?_⟩
      rw [notice_network hg', notice_block hg']
      split <;> simp [hj, greeting, deviceNotice]

/-- What is left of a network that has lost its last block. -/
def leftOver (r : Registry) (n : Network) : Option Network :=
  if r.config.removeEmptyNetworks then none else some { n.clear with phase := .draining }

/-- A network that ends disconnects if it is active. -/
theorem drain_spec (hr : r.WellFormed) (hn : r.networks.get? h = some n) :
    r.Updates (r.drain h).1 n.name.text (r.leftOver n) ∧
      (r.drain h).2.notices = if n.phase = .active then [farewell n] else [] := by
  let m : Network := { n.clear with phase := .draining }
  let r₁ := r.modifyNetwork h fun n => { n.clear with phase := .draining }
  have hg : r₁.networks.get? h = some m := get?_modifyNetwork hn _
  have hu : r.Updates r₁ n.name.text (some m) :=
    updates_modifyNetwork hr hn rfl (Network.wellFormed_of_empty rfl rfl)
  obtain ⟨hue, hne⟩ := eraseNetwork_spec hu.wellFormed hg
  have hd : r.drain h =
      if r.config.removeEmptyNetworks then ((r₁.eraseNetwork h).1,
        (if n.phase = .active then [r.notice .networkDisconnected (some h) none] else []) ++
          (r₁.eraseNetwork h).2.2)
      else (r₁, (if n.phase = .active then [r.notice .networkDisconnected (some h) none] else []) ++
        Journal.ofRemark (.networkKept n.name)) := by
    unfold drain
    rw [hn]
    rfl
  rw [hd, notice_network hn]
  unfold leftOver
  split
  · refine ⟨hu.trans hue, ?_⟩
    have hphase : m.phase ≠ .active := Network.Phase.noConfusion
    rw [Journal.notices_append, hne, if_neg hphase, List.append_nil]
    split <;> rfl
  · refine ⟨hu, ?_⟩
    rw [Journal.notices_append, Journal.notices_ofRemark, List.append_nil]
    split <;> rfl

/-- What becomes of a network when a block is deleted. -/
def afterForget (alive : Nat → Bool) (r : Registry) (block : BlockRef) (n : Network) :
    Option Network :=
  let m := (n.forget alive block).1
  if m.shortcuts.isEmpty then r.leftOver m else some m

/-- The notices of a deleted block: its device's, and that of its network if
this was active and the block its last. -/
theorem forget_spec (hr : r.WellFormed) (alive : Nat → Bool) (block : BlockRef) (hn :
    r.named? block.identity.network.text = some n) :
    r.Updates (r.forget alive block).1 block.identity.network.text (r.afterForget alive block n) ∧
      (r.forget alive block).2.notices =
        (if block.identity.holdsTable then
          [deviceNotice .deviceDisconnected block.identity n] else []) ++
        if n.phase = .active ∧ (n.forget alive block).1.shortcuts.isEmpty then
          [farewell (n.forget alive block).1] else [] := by
  obtain ⟨h, hg, hkey⟩ := (named?_eq_some_iff hr).1 hn
  have hh := (handleOf?_eq_some_iff hr).2 ⟨n, hg, hkey⟩
  obtain ⟨m, hm⟩ : ∃ m, m = (n.forget alive block).1 := ⟨_, rfl⟩
  have hmname : m.name = n.name := by rw [hm, Network.forget_name]
  have hphase : m.phase = n.phase := by rw [hm, Network.forget_phase]
  let r₁ := r.modifyNetwork h fun _ => m
  have hg₁ : r₁.networks.get? h = some m := get?_modifyNetwork hg _
  have hu : r.Updates r₁ n.name.text (some m) :=
    updates_modifyNetwork hr hg hmname (hm ▸ (hr.each h n hg).forget)
  obtain ⟨hud, hnd⟩ := drain_spec hu.wellFormed hg₁
  rw [hmname, hkey] at hud
  rw [hkey] at hu
  let device : Journal :=
    if block.identity.holdsTable then
      [.remark (.deviceDisconnected block.identity),
        r.notice .deviceDisconnected (some h) (some block.identity)]
    else []
  have hdevice : device.notices = if block.identity.holdsTable then
      [deviceNotice .deviceDisconnected block.identity n] else [] := by
    unfold device
    rw [notice_block hg]
    split <;> rfl
  have hf : r.forget alive block =
      if m.shortcuts.isEmpty then ((r₁.drain h).1,
        device ++ Journal.ofRemarks (n.forget alive block).2.2 ++ (r₁.drain h).2)
      else (r₁, device ++ Journal.ofRemarks (n.forget alive block).2.2) := by
    simp only [forget, hh, hg, r₁, hm]
    rfl
  simp only [hf, afterForget, ← hm]
  cases he : m.shortcuts.isEmpty with
  | true =>
    refine ⟨hu.trans hud, ?_⟩
    simp [hdevice, hnd, hphase]
  | false =>
    refine ⟨hu, ?_⟩
    simp [hdevice]

/-- A block whose network is gone takes nothing along. -/
theorem forget_none (hr : r.WellFormed) (alive : Nat → Bool) {block : BlockRef}
    (hn : r.named? block.identity.network.text = none) : r.forget alive block = (r, []) := by
  cases hh : r.handleOf? block.identity.network.text with
  | none => simp only [forget, hh]
  | some h =>
    obtain ⟨n, -, -, hn'⟩ := named?_of_handleOf? hr hh
    rw [hn] at hn'
    cases hn'

end Registry
end SignalRegistry
