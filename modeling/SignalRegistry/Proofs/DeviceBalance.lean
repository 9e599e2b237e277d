/-
# Devices that come and go

The ledger of a device keeps account of what is open between the device and its
listener: which of its `info` blocks were accepted and are held, how many of
those were given up without a notice, and how many that had been rejected went
with one.

What is said to come and to go is in balance with the ledger after every action
(`Ledger.balance_run`), and no action says both of one device, so that a device
is never said to go too often (`Site.tally_prefix_le`). If its tables are all
accepted and come one at a time, the ledger has nothing but the block that is
held, and the two numbers agree once that is gone (`Site.device_balance`).

Key definitions: `Ledger`, `Ledger.note`, `Site.Accepts`, `Site.ComesAlone`.
Key theorems: `Ledger.balance_run`, `Ledger.Keeps.mem_note_iff`,
`Site.tally_prefix_le`, `Site.device_balance`.
-/
import SignalRegistry.Proofs.DeviceNotices
import SignalRegistry.Proofs.Links

namespace SignalRegistry

open Registry (Notice)

/-! ### The ledger -/

/-- What is open between a device and its listener. -/
structure Ledger where
  /-- The blocks with an accepted table that are held. -/
  announced : List Nat := []
  /-- How many blocks with an accepted table were given up without a notice. -/
  lost : Nat := 0
  /-- How many blocks with a rejected table went with a notice. -/
  stray : Nat := 0

namespace Ledger

variable {config : Config} {s : Site} {d : Device} {l : Ledger}

/-- The ledger after an action. -/
def note (d : Device) (s : Site) (l : Ledger) : Site.Action → Ledger
  | .arrive id => if s.introduces d id then { l with announced := id :: l.announced } else l
  | .depart id =>
    if s.holdsTableOf d id then
      if id ∈ l.announced then
        { l with announced := l.announced.erase id, lost := l.lost + (!s.reaches d).toNat }
      else { l with stray := l.stray + (s.reaches d).toNat }
    else l
  | .shutDown => { l with announced := [], lost := l.lost + l.announced.length }
  | _ => l

/-- The ledger after a sequence of actions. -/
def after (d : Device) (s : Site) (l : Ledger) : List Site.Action → Ledger
  | [] => l
  | a :: actions => after d (s.act a) (note d s l a) actions

theorem after_concat (actions : List Site.Action) (a : Site.Action) :
    after d s l (actions ++ [a]) = note d (s.run actions) (after d s l actions) a := by
  induction actions generalizing s l with
  | nil => rfl
  | cons first actions ih => exact ih

/-- Each action is entered in the ledger as it is heard. -/
theorem balance_note (hs : s.hub.Sound config) (l : Ledger) (a : Site.Action) :
    tally .newDevice d (s.hears a) + (note d s l a).stray + l.lost + l.announced.length =
      tally .deviceDisconnected d (s.hears a) + (note d s l a).lost +
        (note d s l a).announced.length + l.stray := by
  -- Most actions are not heard of and not entered.
  have hquiet : s.hears a = [] → note d s l a = l →
      tally .newDevice d (s.hears a) + (note d s l a).stray + l.lost + l.announced.length =
        tally .deviceDisconnected d (s.hears a) + (note d s l a).lost +
          (note d s l a).announced.length + l.stray := by
    intro hnil hsame
    rw [hnil, hsame, tally_nil, tally_nil]
    omega
  have hnil := fun harrive hdepart => Site.hears_eq_nil (a := a) hs harrive hdepart
  cases a with
  | arrive id =>
    obtain ⟨hgone, hcome⟩ := Site.tally_arrive hs d id
    rw [hgone, hcome]
    simp only [note]
    cases s.introduces d id with
    | false =>
      simp only [Bool.toNat_false, Bool.false_eq_true, if_false]
      omega
    | true =>
      simp only [Bool.toNat_true, if_true, List.length_cons]
      omega
  | depart id =>
    obtain ⟨hcome, hgone⟩ := Site.tally_depart hs d id
    rw [hgone, hcome]
    simp only [note]
    cases s.holdsTableOf d id with
    | false =>
      simp only [Bool.false_and, Bool.toNat_false, Bool.false_eq_true, if_false]
      omega
    | true =>
      have hreach : (s.reaches d).toNat + (!s.reaches d).toNat = 1 := by
        cases s.reaches d <;> rfl
      simp only [Bool.true_and, if_true]
      by_cases hmem : id ∈ l.announced
      · have hlen := List.length_erase_of_mem hmem
        have hpos := List.length_pos_of_mem hmem
        simp only [if_pos hmem]
        omega
      · simp only [if_neg hmem]
        omega
  | shutDown =>
    rw [hnil (fun _ => Site.Action.noConfusion) fun _ => Site.Action.noConfusion]
    simp only [note, tally_nil, List.length_nil]
    omega
  | _ => exact hquiet (hnil (fun _ => Site.Action.noConfusion) fun _ => Site.Action.noConfusion) rfl

/-- By induction on the run, from its end. -/
theorem balance_run (hs : s.hub.Sound config) (actions : List Site.Action) :
    tally .newDevice d (s.hearing actions) + (after d s {} actions).stray =
      tally .deviceDisconnected d (s.hearing actions) + (after d s {} actions).lost +
        (after d s {} actions).announced.length := by
  induction actions using List.reverseRecOn with
  | nil => rfl
  | append_singleton actions a ih =>
    have hstep := balance_note (d := d) (Site.sound_run hs actions) (after d s {} actions) a
    rw [Site.hearing_concat, after_concat, tally_append, tally_append]
    omega

theorem stray_le_note (d : Device) (s : Site) (l : Ledger) (a : Site.Action) :
    l.stray ≤ (note d s l a).stray := by
  unfold note
  split
  · split <;> exact Nat.le_refl _
  · split
    · split
      · exact Nat.le_refl _
      · exact Nat.le_add_right _ _
    · exact Nat.le_refl _
  · exact Nat.le_refl _
  · exact Nat.le_refl _

end Ledger

/-! ### Tables that are welcome -/

/-- A block with an accepted table is welcome, unless there is a shortcut to one
of its identity. -/
theorem Hub.Arrival.welcomes {config : Config} {hub : Hub} {alive : Nat → Bool}
    {memory : Memory} {block : BlockRef} {out : Hub × Memory × Except Error Unit × Journal}
    (ha : Arrival alive hub memory block out) (hs : hub.Sound config)
    (hnew : hub.holds block.id = false) (htable : block.identity.holdsTable = true)
    (hok : ∀ why, out.2.2.1 ≠ .error (.malformed why))
    (hnone : ∀ b, hub.registry.Links b → b.identity ≠ block.identity) :
    hub.Welcomes memory block := by
  obtain ⟨layouts, n, hparse, hbefore, -⟩ := ha.accepted hnew htable hok
  refine (hs.welcomes_table_iff htable hparse hbefore).2 fun b hb => ?_
  obtain ⟨hl, hnet⟩ := (hs.mem_blocks_iff_links hbefore b).1 hb
  rw [← Bool.not_eq_true, BlockIdentity.isOf_iff (Name.ext hnet)]
  exact hnone b hl

namespace Site

variable {config : Config} {s : Site} {d : Device}

/-- No table of the device is rejected. -/
def Accepts (s : Site) (d : Device) (a : Action) : Prop :=
  ∀ ref, s.Admits a ref → ref.identity.describes d = true →
    ∀ why, (s.arrive ref.id).2.1 ≠ .error (.malformed why)

/-- No table of the device comes while the hub holds one, and it is not shut
down. -/
def ComesAlone (s : Site) (d : Device) (a : Action) : Prop :=
  a ≠ .shutDown ∧ ∀ ref, s.Admits a ref → ref.identity.describes d = true →
    ∀ b ∈ s.hub.blocks, b.identity.describes d = false

/-- The table of a device is welcome if it is accepted and the hub holds no other
of the device. -/
theorem welcomes_of_introduces (hs : s.hub.Sound config) {ref : BlockRef}
    (hadmits : s.Admits (.arrive ref.id) ref) (hcome : s.introduces d ref.id = true)
    (hone : ∀ b ∈ s.hub.blocks, b.identity.describes d = false) :
    s.hub.Welcomes s.memory ref := by
  obtain ⟨ref', hadmits', hdescribes, hok⟩ := introduces_iff.1 hcome
  obtain rfl := hadmits'.unique hadmits
  obtain ⟨id, he, href, hnew⟩ := hadmits
  obtain rfl := Action.arrive.inj he
  rw [s.arrive_eq href] at hok
  have htable : ref'.identity.holdsTable = true := (BlockIdentity.describes_iff.1 hdescribes).1
  refine (Hub.arrival hs.registry _ s.memory ref').welcomes hs hnew htable hok fun b hl he => ?_
  rw [← he, hone b (hs.mem_of_links hl)] at hdescribes
  cases hdescribes

end Site

/-! ### The blocks of the ledger -/

namespace Ledger

variable {config : Config} {s : Site} {d : Device} {l : Ledger} {a : Site.Action}

/-- The open blocks of the ledger are held, and none is entered twice. -/
structure Keeps (l : Ledger) (d : Device) (s : Site) : Prop where
  nodup : l.announced.Nodup
  held : ∀ id ∈ l.announced, s.holdsTableOf d id = true

theorem Keeps.introduces (hk : l.Keeps d s) {id : Nat} (hmem : id ∈ l.announced) :
    s.introduces d id = false := by
  obtain ⟨b, hb, rfl, -⟩ := Site.holdsTableOf_iff.1 (hk.held id hmem)
  exact Site.introduces_of_mem hb d

/-- A block is open until it goes or the hub is shut down. One more is opened by
an accepted table. -/
theorem Keeps.mem_note_iff (hk : l.Keeps d s) (a : Site.Action) (k : Nat) :
    k ∈ (note d s l a).announced ↔ k ∈ l.announced ∧ a ≠ .depart k ∧ a ≠ .shutDown ∨
      a = .arrive k ∧ s.introduces d k = true := by
  -- Actions that enter nothing and close nothing.
  have hquiet : (∀ k, a ≠ .arrive k) → (∀ k, a ≠ .depart k) → a ≠ .shutDown →
      (note d s l a).announced = l.announced → (k ∈ (note d s l a).announced ↔
        k ∈ l.announced ∧ a ≠ .depart k ∧ a ≠ .shutDown ∨
          a = .arrive k ∧ s.introduces d k = true) := by
    intro harrive hdepart ha hsame
    rw [hsame, or_iff_left fun h => harrive k h.1, and_iff_left ⟨hdepart k, ha⟩]
  cases a with
  | arrive id =>
    have hkeep : (k ∈ l.announced ∧ Site.Action.arrive id ≠ .depart k ∧
        Site.Action.arrive id ≠ .shutDown) ↔ k ∈ l.announced :=
      and_iff_left ⟨Site.Action.noConfusion, Site.Action.noConfusion⟩
    rw [hkeep, Site.Action.arrive.injEq]
    simp only [note]
    cases hcome : s.introduces d id with
    | false =>
      rw [if_neg Bool.false_ne_true]
      refine (or_iff_left ?_).symm
      rintro ⟨rfl, hcome'⟩
      rw [hcome] at hcome'
      cases hcome'
    | true =>
      rw [if_pos rfl, List.mem_cons, or_comm, eq_comm]
      refine or_congr_right (and_iff_left_of_imp ?_).symm
      rintro rfl
      exact hcome
  | depart id =>
    have hother : (Site.Action.depart id ≠ .depart k ∧ Site.Action.depart id ≠ .shutDown) ↔
        k ≠ id := by
      refine (and_iff_left Site.Action.noConfusion).trans ?_
      rw [Ne, Site.Action.depart.injEq, eq_comm]
    rw [or_iff_left fun h => Site.Action.noConfusion h.1, hother]
    simp only [note]
    by_cases hmem : id ∈ l.announced
    · rw [if_pos (hk.held id hmem), if_pos hmem]
      exact hk.nodup.mem_erase_iff.trans and_comm
    · have hopen : k ∈ l.announced → k ≠ id := by
        rintro hk rfl
        exact hmem hk
      rw [if_neg hmem, and_iff_left_of_imp hopen]
      split <;> exact Iff.rfl
  | shutDown =>
    refine iff_of_false List.not_mem_nil ?_
    rintro (⟨-, -, ha⟩ | ⟨he, -⟩)
    · exact ha rfl
    · cases he
  | _ =>
    refine hquiet (fun _ => ?_) (fun _ => ?_) ?_ rfl
    all_goals exact Site.Action.noConfusion

theorem Keeps.nodup_note (hk : l.Keeps d s) (a : Site.Action) :
    (note d s l a).announced.Nodup := by
  cases a with
  | arrive id =>
    simp only [note]
    cases hcome : s.introduces d id with
    | false => exact hk.nodup
    | true =>
      refine List.nodup_cons.2 ⟨fun hmem => ?_, hk.nodup⟩
      rw [hk.introduces hmem] at hcome
      cases hcome
  | depart id =>
    simp only [note]
    split
    · split
      · exact hk.nodup.erase id
      · exact hk.nodup
    · exact hk.nodup
  | shutDown => exact List.nodup_nil
  | _ => exact hk.nodup

theorem Keeps.note (hk : l.Keeps d s) (hs : s.hub.Sound config) (a : Site.Action) :
    (note d s l a).Keeps d (s.act a) := by
  refine ⟨hk.nodup_note a, fun k hmem => ?_⟩
  rcases (hk.mem_note_iff a k).1 hmem with ⟨hopen, hstays, ha⟩ | ⟨rfl, hcome⟩
  · obtain ⟨b, hb, rfl, hdescribes⟩ := Site.holdsTableOf_iff.1 (hk.held k hopen)
    exact Site.holdsTableOf_iff.2 ⟨b, Site.mem_blocks_act hs hb hstays ha, rfl, hdescribes⟩
  · obtain ⟨ref, hadmits, hdescribes, -⟩ := Site.introduces_iff.1 hcome
    have hid : k = ref.id := Site.Action.arrive.inj (Site.eq_arrive_of_admits hadmits)
    exact Site.holdsTableOf_iff.2
      ⟨ref, Site.mem_blocks_of_admits hs hadmits, hid.symm, hdescribes⟩

theorem keeps_run (hs : s.hub.Sound config) (d : Device) (actions : List Site.Action) :
    (after d s {} actions).Keeps d (s.run actions) := by
  induction actions using List.reverseRecOn with
  | nil => exact ⟨List.nodup_nil, fun k hmem => absurd hmem List.not_mem_nil⟩
  | append_singleton actions a ih =>
    rw [after_concat, Site.run_concat]
    exact ih.note (Site.sound_run hs actions) a

/-- Once no block with a table of the device is held, no entry is open. -/
theorem Keeps.announced_eq_nil (hk : l.Keeps d s)
    (hgone : ∀ b ∈ s.hub.blocks, b.identity.describes d = false) : l.announced = [] := by
  rw [List.eq_nil_iff_forall_not_mem]
  intro k hmem
  obtain ⟨b, hb, -, hdescribes⟩ := Site.holdsTableOf_iff.1 (hk.held k hmem)
  rw [hgone b hb] at hdescribes
  cases hdescribes

/-! ### Accepted tables -/

/-- Every block that is held with a table of the device is open: none was
rejected. -/
def Covers (l : Ledger) (d : Device) (s : Site) : Prop :=
  ∀ b ∈ s.hub.blocks, b.identity.describes d = true → b.id ∈ l.announced

theorem Covers.note (hc : l.Covers d s) (hk : l.Keeps d s) (hs : s.hub.Sound config)
    (haccepts : s.Accepts d a) : (note d s l a).Covers d (s.act a) := by
  intro b hb hdescribes
  refine (hk.mem_note_iff a b.id).2 ?_
  rcases (Site.effect hs a).mem_blocks hs hb with hbefore | hadmits
  · refine Or.inl ⟨hc b hbefore hdescribes, ?_, ?_⟩
    · rintro rfl
      exact ((Site.mem_blocks_depart_iff hs b.id).1 hb).2 rfl
    · rintro rfl
      rw [Site.hub_act_shutDown] at hb
      cases hb
  · obtain rfl := Site.eq_arrive_of_admits hadmits
    exact Or.inr ⟨rfl, Site.introduces_iff.2
      ⟨b, hadmits, hdescribes, haccepts b hadmits hdescribes⟩⟩

/-- No block goes that was rejected, if none is held. -/
theorem Covers.stray_note (hc : l.Covers d s) (a : Site.Action) :
    (Ledger.note d s l a).stray = l.stray := by
  cases a with
  | arrive id =>
    simp only [Ledger.note]
    split <;> rfl
  | depart id =>
    simp only [Ledger.note]
    split
    · rename_i htable
      obtain ⟨b, hb, rfl, hdescribes⟩ := Site.holdsTableOf_iff.1 htable
      rw [if_pos (hc b hb hdescribes)]
    · rfl
  | shutDown => rfl
  | _ => rfl

/-- By induction on the run, from its end. -/
theorem covers_run (hs : s.hub.Sound config) (hempty : s.hub.blocks = [])
    (actions : List Site.Action) (haccepts : Site.Throughout (fun s a => s.Accepts d a) s actions) :
    (after d s {} actions).Covers d (s.run actions) ∧ (after d s {} actions).stray = 0 := by
  induction actions using List.reverseRecOn with
  | nil =>
    refine ⟨fun b hb => absurd hb ?_, rfl⟩
    show b ∉ s.hub.blocks
    rw [hempty]
    exact List.not_mem_nil
  | append_singleton actions a ih =>
    obtain ⟨hbefore, hlast⟩ := (Site.throughout_concat s actions a).1 haccepts
    obtain ⟨hcovers, hstray⟩ := ih hbefore
    rw [after_concat, Site.run_concat]
    refine ⟨hcovers.note (keeps_run hs d actions) (Site.sound_run hs actions) hlast, ?_⟩
    rw [hcovers.stray_note, hstray]

/-! ### Tables that come one at a time -/

/-- Every open block has a shortcut, so its network is there. -/
def Linked (l : Ledger) (s : Site) : Prop :=
  ∀ b ∈ s.hub.blocks, b.id ∈ l.announced → s.hub.registry.Links b

theorem Linked.note (hl : l.Linked s) (hk : l.Keeps d s) (hs : s.hub.Sound config)
    (hone : s.ComesAlone d a) : (note d s l a).Linked (s.act a) := by
  intro b hb hmem
  have hopens := (hk.mem_note_iff a b.id).1 hmem
  rcases (Site.effect hs a).mem_blocks hs hb with hbefore | hadmits
  · rcases hopens with ⟨hopen, -⟩ | ⟨-, hcome⟩
    · exact Site.links_act hs (hl b hbefore hopen) hb
    · rw [Site.introduces_of_mem hbefore] at hcome
      cases hcome
  · obtain rfl := Site.eq_arrive_of_admits hadmits
    refine (Site.links_of_admits hs hadmits).2 ?_
    rcases hopens with ⟨hopen, -⟩ | ⟨-, hcome⟩
    · -- An open block is held, and does not come.
      obtain ⟨-, -, -, hnew⟩ := hadmits
      obtain ⟨b', hb', hid, -⟩ := Site.holdsTableOf_iff.1 (hk.held b.id hopen)
      exact absurd hid (Hub.id_ne_of_not_holds hnew hb')
    · obtain ⟨ref, hadmits', hdescribes, -⟩ := Site.introduces_iff.1 hcome
      exact Site.welcomes_of_introduces hs hadmits hcome (hone.2 ref hadmits' hdescribes)

/-- A block with a shortcut goes with a notice. -/
theorem Linked.lost_note (hl : l.Linked s) (hk : l.Keeps d s) (ha : a ≠ .shutDown) :
    (Ledger.note d s l a).lost = l.lost := by
  cases a with
  | arrive id =>
    simp only [Ledger.note]
    split <;> rfl
  | depart id =>
    simp only [Ledger.note]
    split
    · split
      · rename_i hopen
        obtain ⟨b, hb, rfl, hdescribes⟩ := Site.holdsTableOf_iff.1 (hk.held id hopen)
        obtain ⟨n, hn, -⟩ := hl b hb hopen
        have hreach : s.reaches d = true := by
          unfold Site.reaches
          rw [← network_of_describes hdescribes, hn]
          rfl
        simp only [hreach]
        rfl
      · rfl
    · rfl
  | shutDown => exact absurd rfl ha
  | _ => rfl

/-- By induction on the run, from its end. -/
theorem linked_run (hs : s.hub.Sound config) (actions : List Site.Action)
    (hone : Site.Throughout (fun s a => s.ComesAlone d a) s actions) :
    (after d s {} actions).Linked (s.run actions) ∧ (after d s {} actions).lost = 0 := by
  induction actions using List.reverseRecOn with
  | nil => exact ⟨fun b _ hmem => absurd hmem List.not_mem_nil, rfl⟩
  | append_singleton actions a ih =>
    obtain ⟨hbefore, hlast⟩ := (Site.throughout_concat s actions a).1 hone
    obtain ⟨hlinked, hlost⟩ := ih hbefore
    have hk := keeps_run hs d actions
    rw [after_concat, Site.run_concat]
    refine ⟨hlinked.note hk (Site.sound_run hs actions) hlast, ?_⟩
    rw [hlinked.lost_note hk hlast.1, hlost]

end Ledger

/-! ### What is heard in the course of a run -/

namespace Site

variable {config : Config} {s : Site} {d : Device}

/-- At no point in a run is a device said to go more often than it is said to
come, but for blocks that were rejected. By induction on the run, from its end. -/
theorem tally_prefix_le (hs : s.hub.Sound config) (actions : List Action) {p : List Notice}
    (hp : p <+: s.hearing actions) : tally .deviceDisconnected d p ≤
      tally .newDevice d p + (Ledger.after d s {} actions).stray := by
  induction actions using List.reverseRecOn generalizing p with
  | nil =>
    rw [List.prefix_nil.1 hp]
    exact Nat.zero_le _
  | append_singleton actions a ih =>
    have hstray := Ledger.stray_le_note d (s.run actions) (Ledger.after d s {} actions) a
    have hbalance := Ledger.balance_run (d := d) hs actions
    have hbalance' := Ledger.balance_run (d := d) hs (actions ++ [a])
    rw [hearing_concat] at hp hbalance'
    rw [Ledger.after_concat] at hbalance' ⊢
    rw [tally_append, tally_append] at hbalance'
    rcases List.prefix_or_prefix_of_prefix hp (List.prefix_append _ _) with hp | ⟨q, rfl⟩
    · have := ih hp
      omega
    · have hq := (List.prefix_append_right_inj _).1 hp
      -- The last action says one of the two at most.
      have hcome := tally_le_of_prefix .newDevice d hq
      have hgo := tally_le_of_prefix .deviceDisconnected d hq
      rw [tally_append, tally_append]
      rcases tally_hears (sound_run hs actions) d a with hnone | hnone <;> omega

/-! ### Balance -/

/-- **A device goes as often as it came.** At every point of every run, a device has
been said to go at most as often as it was said to come, and once more for each
block of it that went after its table was rejected. The two are equal once the
blocks with its tables are gone, if none was given up without a notice. No
rejected block goes if no table of the device is rejected, and none is given up
if they come one at a time. -/
theorem device_balance (config : Config) (actions : List Action) (d : Device) :
    let s := (ofConfig config).run actions
    let heard := (ofConfig config).hearing actions
    let ledger := Ledger.after d (ofConfig config) {} actions
    (∀ p, p <+: heard →
      tally .deviceDisconnected d p ≤ tally .newDevice d p + ledger.stray) ∧
    ((∀ b ∈ s.hub.blocks, b.identity.describes d = false) → ledger.lost = 0 →
      tally .deviceDisconnected d heard = tally .newDevice d heard + ledger.stray) ∧
    (Throughout (fun s a => s.Accepts d a) (ofConfig config) actions → ledger.stray = 0) ∧
    (Throughout (fun s a => s.ComesAlone d a) (ofConfig config) actions → ledger.lost = 0) := by
  intro s heard ledger
  have hstart : (ofConfig config).hub.Sound config := Hub.sound_ofConfig config
  refine ⟨fun p hp => tally_prefix_le hstart actions hp, fun hgone hlost => ?_,
    fun haccepts => (Ledger.covers_run hstart rfl actions haccepts).2,
    fun hone => (Ledger.linked_run hstart actions hone).2⟩
  have hbalance := Ledger.balance_run (d := d) hstart actions
  rw [(Ledger.keeps_run hstart d actions).announced_eq_nil hgone] at hbalance
  have hlost' : (Ledger.after d (ofConfig config) {} actions).lost = 0 := hlost
  rw [hlost', List.length_nil] at hbalance
  exact hbalance.symm

/-- A device arrives and goes. -/
def visit : List Action := [.publish (infoBlock "gina" 1), .arrive 0, .depart 0]

/-- It is said to come once, and nothing of it is left. -/
theorem run_visit :
    (((ofConfig .default).run (visit.take 1)).arrive 0).2.1 = .ok () ∧
    tally .newDevice (infoBlock "gina" 1).identity.owner ((ofConfig .default).hearing visit) = 1 ∧
    (((ofConfig .default).run visit).hub.blocks) = [] := by decide +kernel

/-- A device that comes once goes once. -/
theorem device_balance_visit : tally .deviceDisconnected (infoBlock "gina" 1).identity.owner
    ((ofConfig .default).hearing visit) = 1 := by
  let d := (infoBlock "gina" 1).identity.owner
  obtain ⟨hok, hcame, hnone⟩ := run_visit
  obtain ⟨-, hequal, hstray, hlost⟩ := device_balance .default visit d
  have hgone : ∀ b ∈ ((ofConfig .default).run visit).hub.blocks,
      b.identity.describes d = false := by
    rw [hnone]
    exact fun b hb => absurd hb List.not_mem_nil
  have haccepts : Throughout (fun s a => s.Accepts d a) (ofConfig .default) visit := by
    refine ⟨?_, ?_, ?_, trivial⟩
    · rintro ref ⟨id, he, -⟩
      cases he
    · intro ref hadmits _ why he
      have hid := Action.arrive.inj (eq_arrive_of_admits hadmits)
      rw [hid] at hok
      cases hok.symm.trans he
    · rintro ref ⟨id, he, -⟩
      cases he
  have hone : Throughout (fun s a => s.ComesAlone d a) (ofConfig .default) visit := by
    refine ⟨⟨Action.noConfusion, fun ref _ _ b hb => absurd hb List.not_mem_nil⟩,
      ⟨Action.noConfusion, fun ref _ _ b hb => absurd hb List.not_mem_nil⟩,
      ⟨Action.noConfusion, ?_⟩, trivial⟩
    rintro ref ⟨id, he, -⟩
    cases he
  have := hequal hgone (hlost hone)
  rw [hstray haccepts, hcame] at this
  exact this

/-- A device arrives, and a broken table comes and goes. -/
def brokenVisit : List Action :=
  [.publish (infoBlock "gina" 1), .publish (brokenInfo "gina" 2 "n"), .arrive 0, .arrive 1, .depart 1]

theorem tally_brokenVisit :
    let d := (brokenInfo "gina" 2 "n").identity.owner
    let heard := (ofConfig .default).hearing brokenVisit
    tally .newDevice d heard = 0 ∧ tally .deviceDisconnected d heard = 1 := by decide +kernel

/-- A device may be said to go without having come: if its table is rejected and
its network is there. -/
theorem disconnected_unannounced : ¬ ∀ (config : Config) (actions : List Action) (d : Device),
    (∀ p, p <+: (ofConfig config).hearing actions →
      tally .deviceDisconnected d p ≤ tally .newDevice d p) ∧
    ((∀ b ∈ ((ofConfig config).run actions).hub.blocks, b.identity.owner ≠ d) →
      tally .deviceDisconnected d ((ofConfig config).hearing actions) =
        tally .newDevice d ((ofConfig config).hearing actions)) := by
  intro h
  obtain ⟨hnone, hone⟩ := tally_brokenVisit
  have hle := (h .default brokenVisit (brokenInfo "gina" 2 "n").identity.owner).1 _ List.prefix_rfl
  rw [hnone, hone] at hle
  exact absurd hle (by decide)

end Site
end SignalRegistry
