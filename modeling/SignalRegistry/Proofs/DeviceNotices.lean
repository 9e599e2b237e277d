/-
# What is said of a device

A device is said to come when an `info` block of it is accepted, and to go when
an `info` block of it goes while its network is there. A block that was
rejected is held like any other, and the device is said to go with it though
nothing was said to come. This module counts what one action says of a device:
never both, and each at most once (`Site.tally_arrive`, `Site.tally_depart`).
Events name a device by what is left of its name within 15 bytes, so devices
that share that are one device here.

Key definitions: `Device`, `Device.heard`, `tally`, `Site.introduces`, `Site.holdsTableOf`,
`Site.reaches`.
Key theorems: `Hub.Arrival.tally_eq`, `Hub.Departure.tally_eq`,
`Site.tally_arrive`, `Site.tally_depart`, `Site.tally_hears`.
-/
import SignalRegistry.Proofs.Isolation

namespace SignalRegistry

open Registry (Notice greeting farewell deviceNotice)

/-- A device of a network. -/
structure Device where
  name : BlockName
  number : UInt32
  network : NetworkName
deriving DecidableEq

/-- The device of a block. -/
def BlockIdentity.owner (i : BlockIdentity) : Device := ⟨i.device, i.number, i.network⟩

/-- The device under the name that events give it. -/
def Device.heard (d : Device) : Device := { d with name := .cut 16 d.name.text }

/-- The block carries a table of what is heard of as the device. -/
def BlockIdentity.describes (i : BlockIdentity) (d : Device) : Bool :=
  i.holdsTable && decide (i.owner.heard = d)

/-- The event is of this kind and about the device. -/
def Event.concerns (e : Event) (kind : Event.Kind) (d : Device) : Bool :=
  decide (e.kind = kind ∧ (⟨e.device, e.number, e.network⟩ : Device) = d)

/-- How many notices of a kind there are about a device. -/
def tally (kind : Event.Kind) (d : Device) (notices : List Notice) : Nat :=
  notices.countP fun notice => notice.1.concerns kind d

/-- The answer is that the table, or the name of its network, is malformed. -/
def isMalformed : Except Error Unit → Bool
  | .error (.malformed _) => true
  | _ => false

theorem isMalformed_iff {answer : Except Error Unit} :
    isMalformed answer = true ↔ ∃ why, answer = .error (.malformed why) := by
  unfold isMalformed
  split
  · rename_i why
    exact iff_of_true rfl ⟨why, rfl⟩
  · rename_i hne
    exact iff_of_false Bool.false_ne_true fun ⟨why, he⟩ => hne why he

@[simp] theorem tally_nil (kind : Event.Kind) (d : Device) : tally kind d [] = 0 := rfl

@[simp] theorem tally_append (kind : Event.Kind) (d : Device) (a b : List Notice) :
    tally kind d (a ++ b) = tally kind d a + tally kind d b := List.countP_append

@[simp] theorem tally_cons (kind : Event.Kind) (d : Device) (notice : Notice) (a : List Notice) :
    tally kind d (notice :: a) = (notice.1.concerns kind d).toNat + tally kind d a := by
  unfold tally
  rw [List.countP_cons]
  cases notice.1.concerns kind d with
  | true => simp [Nat.add_comm]
  | false => simp

theorem tally_le_of_prefix (kind : Event.Kind) (d : Device) {p notices : List Notice}
    (hp : p <+: notices) : tally kind d p ≤ tally kind d notices := hp.sublist.countP_le

/-- A notice of another kind does not count. -/
theorem Event.concerns_of_ne {e : Event} {kind : Event.Kind} (hk : e.kind ≠ kind) (d : Device) :
    e.concerns kind d = false := decide_eq_false fun h => hk h.1

theorem concerns_deviceNotice {i : BlockIdentity} (ht : i.holdsTable = true) {n : Network}
    (hname : n.name.text = i.network.text) (kind : Event.Kind) (d : Device) :
    (deviceNotice kind i n).1.concerns kind d = i.describes d := by
  unfold Event.concerns BlockIdentity.describes
  rw [ht, Bool.true_and, Registry.network_deviceNotice hname]
  exact decide_eq_decide.2 (and_iff_right rfl)

theorem BlockIdentity.describes_iff {i : BlockIdentity} {d : Device} :
    i.describes d = true ↔ i.holdsTable = true ∧ i.owner.heard = d := by
  unfold describes
  rw [Bool.and_eq_true, decide_eq_true_iff]

theorem describes_of_not_holdsTable {i : BlockIdentity} (ht : i.holdsTable = false) (d : Device) :
    i.describes d = false := by
  unfold BlockIdentity.describes
  rw [ht, Bool.false_and]

theorem network_of_describes {i : BlockIdentity} {d : Device} (hd : i.describes d = true) :
    i.network = d.network := congrArg Device.network (BlockIdentity.describes_iff.1 hd).2

/-! ### What is said of a block -/

namespace Hub

variable {config : Config} {hub : Hub} {alive : Nat → Bool} {memory : Memory} {block : BlockRef}

@[simp] theorem concerns_blockNotice (hub : Hub) {kind kind' : Event.Kind} (hk : kind ≠ kind')
    (i : BlockIdentity) (d : Device) : (hub.blockNotice kind i).1.concerns kind' d = false :=
  Event.concerns_of_ne hk d

/-- A block that comes announces its device if its table is accepted. -/
theorem Arrival.tally_eq {out : Hub × Memory × Except Error Unit × Journal}
    (ha : Arrival alive hub memory block out) (hr : hub.registry.WellFormed) (d : Device) :
    tally .deviceDisconnected d out.2.2.2.notices = 0 ∧
      tally .newDevice d out.2.2.2.notices =
        (block.identity.describes d && !hub.holds block.id && !isMalformed out.2.2.1).toNat := by
  cases ha with
  | known held => simp [held]
  | data new kind updates notices =>
    have hdescribes := describes_of_not_holdsTable kind d
    simp [notices, hdescribes]
  | rejected new kind reason notices => simp [notices, isMalformed]
  | @registered new kind layouts n m r grown result journal table before after updates growth notices =>
    have hresult : isMalformed result = false := by
      rw [← Bool.not_eq_true, isMalformed_iff]
      rintro ⟨why, he⟩
      exact ne_malformed_of_growth growth why he
    have hgreeting : ∀ kind, kind ≠ .newNetwork →
        tally kind d (if n.phase = .active then [] else [greeting m]) = 0 := by
      intro kind hk
      split
      · rfl
      · rw [tally_cons, Event.concerns_of_ne hk.symm]
        rfl
    have hname : m.name.text = block.identity.network.text := by
      rw [after, Network.register_name, (Registry.provided_eq_ok hr before).1]
    have hother : (deviceNotice .newDevice block.identity m).1.concerns .deviceDisconnected d =
        false := Event.concerns_of_ne Event.Kind.noConfusion d
    constructor
    · simp [notices, hgreeting, hother]
    · simp [notices, hgreeting, concerns_deviceNotice kind hname, new, hresult]

/-- A block that goes takes its device along if its network is there. -/
theorem Departure.tally_eq {id : Nat} {out : Hub × Except Error Unit × Journal}
    (hd : Departure alive hub id out) (hs : hub.Sound config) (d : Device) :
    tally .newDevice d out.2.2.notices = 0 ∧
      tally .deviceDisconnected d out.2.2.notices =
        ((hub.blocks.any fun b => b.id == id && b.identity.describes d) &&
          (hub.registry.named? d.network.text).isSome).toNat := by
  -- The block of the number is the only one that counts.
  have hany : ∀ {block : BlockRef}, block ∈ hub.blocks → block.id = id →
      (hub.blocks.any fun b => b.id == id && b.identity.describes d) =
        block.identity.describes d := by
    intro block held is
    rw [Bool.eq_iff_iff, List.any_eq_true]
    constructor
    · rintro ⟨b, hb, hmatch⟩
      rw [Bool.and_eq_true, beq_iff_eq] at hmatch
      have he : b = block := hs.eq_of_id hb held (hmatch.1.trans is.symm)
      exact he ▸ hmatch.2
    · intro hdescribes
      exact ⟨block, held, by rw [is, beq_self_eq_true, hdescribes]; rfl⟩
  cases hd with
  | unknown absent =>
    have hnone : (hub.blocks.any fun b => b.id == id && b.identity.describes d) = false := by
      rw [← Bool.not_eq_true, List.any_eq_true]
      rintro ⟨b, hb, hmatch⟩
      rw [Bool.and_eq_true, beq_iff_eq] at hmatch
      exact id_ne_of_not_holds absent hb hmatch.1
    simp [hnone]
  | @alone block held is absent journal notices =>
    have hgone : block.identity.describes d = true →
        hub.registry.named? d.network.text = none := by
      intro hdescribes
      rw [← network_of_describes hdescribes, absent]
    rw [notices, hany held is]
    cases hdescribes : block.identity.describes d with
    | false => simp
    | true => simp [hgone hdescribes]
  | @forgotten block held is n before r journal updates notices =>
    have hfarewell : ∀ kind, kind ≠ .networkDisconnected →
        tally kind d (if n.phase = .active ∧ (n.forget alive block).1.shortcuts.isEmpty then
          [farewell (n.forget alive block).1] else []) = 0 := by
      intro kind hk
      split
      · rw [tally_cons, Event.concerns_of_ne hk.symm]
        rfl
      · rfl
    have hthere : block.identity.describes d = true →
        (hub.registry.named? d.network.text).isSome = true := by
      intro hdescribes
      rw [← network_of_describes hdescribes, before]
      rfl
    have hname := Registry.name_of_named? hs.registry before
    have hother : (deviceNotice .deviceDisconnected block.identity n).1.concerns .newDevice d =
        false := Event.concerns_of_ne Event.Kind.noConfusion d
    rw [notices, hany held is]
    cases kind : block.identity.holdsTable with
    | false =>
      have hdescribes := describes_of_not_holdsTable kind d
      simp [hfarewell, hdescribes]
    | true =>
      constructor
      · simp [hfarewell, hother]
      · cases hdescribes : block.identity.describes d with
        | false => simp [hfarewell, concerns_deviceNotice kind hname, hdescribes]
        | true => simp [hfarewell, concerns_deviceNotice kind hname, hdescribes, hthere hdescribes]

end Hub

/-! ### What is said of an action -/

namespace Site

variable {config : Config} {s : Site} {d : Device} {id : Nat}

/-- A block with an accepted table of the device comes. -/
def introduces (s : Site) (d : Device) (id : Nat) : Bool :=
  match s.memory.ref? id with
  | none => false
  | some ref =>
    ref.identity.describes d && !s.hub.holds ref.id && !isMalformed (s.arrive id).2.1

/-- The hub holds a block of this number with a table of the device. -/
def holdsTableOf (s : Site) (d : Device) (id : Nat) : Bool :=
  s.hub.blocks.any fun b => b.id == id && b.identity.describes d

/-- The network of the device is there. -/
def reaches (s : Site) (d : Device) : Bool := (s.hub.registry.named? d.network.text).isSome

/-- What is neither a report of a block that comes nor of one that goes is not
heard of. -/
theorem hears_eq_nil (hs : s.hub.Sound config) {a : Action} (harrive : ∀ id, a ≠ .arrive id)
    (hdepart : ∀ id, a ≠ .depart id) : s.hears a = [] := by
  cases effect hs a with
  | arrived is href arrival hub hears => exact absurd is (harrive _)
  | departed is departure hub hears => exact absurd is (hdepart _)
  | resolved ids hub hears => exact hears
  | ended is hub hears => exact hears
  | idle hub hears => exact hears

theorem tally_arrive (hs : s.hub.Sound config) (d : Device) (id : Nat) :
    tally .deviceDisconnected d (s.hears (.arrive id)) = 0 ∧
      tally .newDevice d (s.hears (.arrive id)) = (s.introduces d id).toNat := by
  unfold introduces
  cases href : s.memory.ref? id with
  | none =>
    have hnil : s.hears (.arrive id) = [] := by
      simp only [hears, delivered, arrive, href]
      rfl
    rw [hnil]
    exact ⟨rfl, rfl⟩
  | some ref =>
    rw [s.hears_arrive href, s.arrive_eq href]
    exact (Hub.arrival hs.registry (s.aliveWith id) s.memory ref).tally_eq hs.registry d

theorem tally_depart (hs : s.hub.Sound config) (d : Device) (id : Nat) :
    tally .newDevice d (s.hears (.depart id)) = 0 ∧
      tally .deviceDisconnected d (s.hears (.depart id)) =
        (s.holdsTableOf d id && s.reaches d).toNat := by
  rw [s.hears_depart]
  exact (Hub.departure hs.registry s.isAlive id).tally_eq hs d

/-- A device is not said both to come and to go in one action. -/
theorem tally_hears (hs : s.hub.Sound config) (d : Device) (a : Action) :
    tally .newDevice d (s.hears a) = 0 ∨ tally .deviceDisconnected d (s.hears a) = 0 := by
  cases a with
  | arrive id => exact Or.inr (tally_arrive hs d id).1
  | depart id => exact Or.inl (tally_depart hs d id).1
  | _ =>
    left
    rw [hears_eq_nil hs (fun _ => Action.noConfusion) fun _ => Action.noConfusion]
    rfl

/-! ### Which blocks count -/

theorem holdsTableOf_iff : s.holdsTableOf d id = true ↔
    ∃ b ∈ s.hub.blocks, b.id = id ∧ b.identity.describes d = true := by
  unfold holdsTableOf
  rw [List.any_eq_true]
  simp only [Bool.and_eq_true, beq_iff_eq]

theorem introduces_iff : s.introduces d id = true ↔ ∃ ref, s.Admits (.arrive id) ref ∧
    ref.identity.describes d = true ∧ ∀ why, (s.arrive id).2.1 ≠ .error (.malformed why) := by
  unfold introduces
  cases href : s.memory.ref? id with
  | none =>
    refine iff_of_false Bool.false_ne_true ?_
    rintro ⟨ref, ⟨id', he, href', -⟩, -⟩
    cases he
    rw [href] at href'
    cases href'
  | some ref =>
    have hok : isMalformed (s.arrive id).2.1 = false ↔
        ∀ why, (s.arrive id).2.1 ≠ .error (.malformed why) := by
      rw [← Bool.not_eq_true, isMalformed_iff, not_exists]
    simp only [Bool.and_eq_true, Bool.not_eq_true', hok]
    constructor
    · rintro ⟨⟨hdescribes, hnew⟩, hok⟩
      exact ⟨ref, ⟨id, rfl, href, hnew⟩, hdescribes, hok⟩
    · rintro ⟨ref', ⟨id', he, href', hnew⟩, hdescribes, hok⟩
      cases he
      rw [href, Option.some_inj] at href'
      subst href'
      exact ⟨⟨hdescribes, hnew⟩, hok⟩

/-- A block that is held does not come. -/
theorem introduces_of_mem {b : BlockRef} (hb : b ∈ s.hub.blocks) (d : Device) :
    s.introduces d b.id = false := by
  rw [← Bool.not_eq_true, introduces_iff]
  rintro ⟨ref, hadmits, -⟩
  have hid : b.id = ref.id := Action.arrive.inj (eq_arrive_of_admits hadmits)
  obtain ⟨-, -, -, hnew⟩ := hadmits
  exact Hub.id_ne_of_not_holds hnew hb hid

end Site
end SignalRegistry
