/-
# A report concerns one network

A block that comes or goes changes the network of its own name at most. Every
other network stays under its handle as it is, with its signals, shortcuts and
phase, whatever is answered (`Hub.Arrival.others`, `Hub.Departure.others`). A
block whose table is malformed changes no network at all: it is put into the
list of blocks, and that it came is notified (`Hub.Arrival.malformed`).

The hub finds a block that goes in its own list. That this is the block that
was published under the number is kept along every run (`Site.recorded_run`).

Key definitions: `Site.Recorded`.
Key theorems: `Hub.growBlocks_error`, `Hub.Arrival.malformed`,
`Site.recorded_run`, `Site.isolated_report`.
-/
import SignalRegistry.Proofs.Addressing
import SignalRegistry.Proofs.Reports

namespace SignalRegistry

namespace Memory

variable {m : Memory} {k : Nat}

/-- A block that is published leaves the others what they are. -/
theorem ref?_publish {ref : BlockRef} (hk : m.ref? k = some ref) (block : Block) :
    (m.publish block).1.ref? k = some ref := by
  obtain ⟨b, hb, hbref⟩ := Option.map_eq_some_iff.1 hk
  have hlt : k < m.blocks.size := (Array.getElem?_eq_some_iff.1 hb).1
  have hpush : (m.blocks.push block)[k]? = m.blocks[k]? := by
    rw [Array.getElem?_push, if_neg (by omega)]
  show ((m.blocks.push block)[k]?).map _ = _
  rw [hpush]
  exact Option.map_eq_some_iff.2 ⟨b, hb, hbref⟩

/-- A change fails as the function does, or because the block is not there. -/
theorem change_error {f : Block → Except Error Block} {e : Error}
    (he : (m.change k f).2 = .error e) : e = .notFound .block ∨ ∃ b, f b = .error e := by
  unfold change at he
  split at he
  · exact Or.inl (Except.error.inj he).symm
  · rename_i b _
    split at he
    · cases he
    · rename_i e' hf
      obtain rfl := Except.error.inj he
      exact Or.inr ⟨b, hf⟩

end Memory

/-- A block that cannot be grown has no room. -/
theorem Block.growWithin_error {m : Block} {grants : Nat → Bool} {size : Nat} {e : Error}
    (he : m.growWithin grants size = .error e) : e = .exhausted .blockCapacity := by
  unfold growWithin at he
  simp only at he
  split at he
  · cases he
  · split at he
    · cases he
    · exact (Except.error.inj he).symm

theorem Binding.ref?_write (alive : Nat → Bool) (memory : Memory) (b : Binding) (value : Value)
    (state : UInt8) (k : Nat) : (b.write alive memory value state).1.ref? k = memory.ref? k := by
  unfold write
  split
  · rfl
  · split
    · exact memory.ref?_change _ k _
    · rfl

namespace Hub

variable {hub : Hub} {alive : Nat → Bool} {memory : Memory} {block : BlockRef}

/-! ### Growth -/

theorem ref?_growBlocks (hub : Hub) (i : BlockIdentity) (memory : Memory) (layouts : List Layout)
    (k : Nat) : (hub.growBlocks i memory layouts).1.ref? k = memory.ref? k := by
  induction layouts generalizing memory with
  | nil => rfl
  | cons l more ih =>
    unfold growBlocks
    split
    · exact ih memory
    · rename_i b _
      have hchange : (memory.grow b.id l.size.toNat).1.ref? k = memory.ref? k :=
        memory.ref?_change b.id k _
      split
      · rename_i grown he
        rw [he] at hchange
        exact (ih grown).trans hchange
      · rename_i grown e he
        rw [he] at hchange
        exact hchange

/-- The growth of blocks fails for want of room, or of the block. -/
theorem growBlocks_error {i : BlockIdentity} {layouts : List Layout} {e : Error}
    (he : (hub.growBlocks i memory layouts).2 = .error e) :
    e = .notFound .block ∨ e = .exhausted .blockCapacity := by
  induction layouts generalizing memory with
  | nil => cases he
  | cons l more ih =>
    unfold growBlocks at he
    split at he
    · exact ih he
    · rename_i b _
      split at he
      · exact ih he
      · rename_i grown e' hchange
        obtain rfl := Except.error.inj he
        rcases Memory.change_error (congrArg Prod.snd hchange) with hmissing | ⟨m, hgrow⟩
        · exact Or.inl hmissing
        · exact Or.inr (Block.growWithin_error hgrow)

/-- A table that was read can only fail to find room for its signals. -/
theorem ne_malformed_of_growth {grows : Bool} {i : BlockIdentity} {layouts : List Layout}
    {grown : Memory} {result : Except Error Unit}
    (growth : (grown, result) = if grows then hub.growBlocks i memory layouts else (memory, .ok ()))
    (why : Defect) : result ≠ .error (.malformed why) := by
  intro he
  split at growth
  · have hgrowth := congrArg Prod.snd growth
    rcases growBlocks_error (hgrowth.symm.trans he) with hmissing | hroom
    · cases hmissing
    · cases hroom
  · have hok : result = .ok () := congrArg Prod.snd growth
    rw [hok] at he
    cases he

/-! ### Blocks that come -/

namespace Arrival

variable {out : Hub × Memory × Except Error Unit × Journal}

/-- Networks of other names stay as they are. -/
theorem others (ha : Arrival alive hub memory block out) {h : Handle} {n : Network}
    (hne : n.name ≠ block.identity.network) :
    out.1.registry.networks.get? h = some n ↔ hub.registry.networks.get? h = some n := by
  have hname : n.name.text ≠ block.identity.network.text := fun htext => hne (Name.ext htext)
  cases ha with
  | known held => exact Iff.rfl
  | data new kind updates notices => exact updates.others h n hname
  | rejected new kind reason notices => exact Iff.rfl
  | registered new kind table before after updates growth notices => exact updates.others h n hname

/-- A block with a malformed table, or with one for a network that cannot have its
name, is put into the list of blocks and nothing else is done. -/
theorem malformed (ha : Arrival alive hub memory block out) {why : Defect}
    (he : out.2.2.1 = .error (.malformed why)) :
    out.1 = hub.receive block ∧ out.2.1 = memory ∧
      out.2.2.2.notices = [hub.blockNotice .newMemoryBlock block.identity] := by
  cases ha with
  | known held => cases he
  | data new kind updates notices => cases he
  | rejected new kind reason notices => exact ⟨rfl, rfl, notices⟩
  | registered new kind table before after updates growth notices =>
    exact absurd he (ne_malformed_of_growth growth why)

theorem ref? (ha : Arrival alive hub memory block out) (k : Nat) :
    out.2.1.ref? k = memory.ref? k := by
  cases ha with
  | known held => rfl
  | data new kind updates notices => rfl
  | rejected new kind reason notices => rfl
  | @registered new kind layouts n m r grown result journal table before after updates growth notices =>
    split at growth
    · have hgrown : grown = _ := congrArg Prod.fst growth
      show grown.ref? k = _
      rw [hgrown]
      exact ref?_growBlocks _ _ _ _ k
    · have hgrown : grown = memory := congrArg Prod.fst growth
      show grown.ref? k = _
      rw [hgrown]

end Arrival

/-! ### Blocks that go -/

namespace Departure

variable {id : Nat} {out : Hub × Except Error Unit × Journal}

/-- Networks of other names than that of the block stay as they are. -/
theorem others (hd : Departure alive hub id out) {name : NetworkName}
    (hid : ∀ b ∈ hub.blocks, b.id = id → b.identity.network = name) {h : Handle} {n : Network}
    (hne : n.name ≠ name) :
    out.1.registry.networks.get? h = some n ↔ hub.registry.networks.get? h = some n := by
  cases hd with
  | unknown absent => exact Iff.rfl
  | alone held is absent notices => exact Iff.rfl
  | @forgotten b held is m before r journal updates notices =>
    have hname : n.name.text ≠ b.identity.network.text := by
      intro htext
      exact hne ((Name.ext htext).trans (hid b held is))
    exact updates.others h n hname

end Departure
end Hub

namespace Site

/-! ### Blocks keep their number -/

/-- The blocks of the hub are those that were published under their number. -/
def Recorded (s : Site) : Prop := ∀ b ∈ s.hub.blocks, s.memory.ref? b.id = some b

theorem memory_clearQueue (s : Site) : s.clearQueue.memory = s.memory := by
  unfold clearQueue
  split <;> rfl

/-- A reference leads to its block for ever. -/
theorem ref?_act {config : Config} {s : Site} (hs : s.hub.Sound config) (a : Action) {k : Nat}
    {ref : BlockRef} (hk : s.memory.ref? k = some ref) : (s.act a).memory.ref? k = some ref := by
  have hclear : s.clearQueue.memory.ref? k = some ref := by rw [memory_clearQueue, hk]
  cases a with
  | publish block => exact Memory.ref?_publish hk block
  | changeBlock id f => exact (s.memory.ref?_change id k f).trans hk
  | allot grants => exact hk
  | arrive id =>
    simp only [act, arrive]
    split
    · exact hk
    · rename_i come _
      simp only [memory_deliver]
      exact ((Hub.arrival hs.registry _ s.memory come).ref? k).trans hk
  | depart id =>
    simp only [act, depart, memory_deliver]
    exact hk
  | resolve ids =>
    simp only [act, resolve, memory_deliver]
    exact hk
  | resolvePath path own =>
    simp only [act, resolvePath, memory_deliver]
    exact hk
  | getPath path =>
    simp only [act, getPath, memory_deliver]
    exact hk
  | setPath path value =>
    simp only [act, setPath, memory_deliver]
    unfold Hub.setPath
    split
    · exact (Binding.ref?_write _ _ _ _ _ k).trans hk
    · exact hk
  | write b value state => exact (b.ref?_write _ _ _ _ k).trans hk
  | push i e =>
    obtain ⟨qs, hq⟩ := s.push_eq i e
    show (s.push i e).1.memory.ref? k = some ref
    rw [hq]
    exact hk
  | shutDown =>
    simp only [act, shutDown, memory_deliver]
    exact hclear
  | closeQueue => exact hclear
  | openQueue depth mask => exact hclear
  | openConfiguredQueue => exact hclear
  | letGo id => exact hk
  | find path => exact hk
  | listen listening => exact hk
  | changeQueue i f => exact hk

theorem recorded_act {config : Config} {s : Site} (hs : s.hub.Sound config) (hr : s.Recorded)
    (a : Action) : (s.act a).Recorded := by
  intro b hb
  rcases (effect hs a).mem_blocks hs hb with hmem | ⟨id, -, href, -⟩
  · exact ref?_act hs a (hr b hmem)
  · rw [Memory.id_of_ref? href]
    exact ref?_act hs a href

/-- By induction on the run, over hubs that are sound. -/
theorem recorded_run {config : Config} {s : Site} (hs : s.hub.Sound config) (hr : s.Recorded)
    (actions : List Action) : (s.run actions).Recorded := by
  induction actions generalizing s with
  | nil => exact hr
  | cons a actions ih => exact ih (sound_act hs a) (recorded_act hs hr a)

/-! ### Delivery -/

/-- What delivery does to a site depends on the events of the journal only. -/
theorem deliver_fst (s : Site) (j : Journal) :
    (s.deliver j).1 = j.events.foldl (fun s e => (s.enqueue e).1) s := by
  induction j generalizing s with
  | nil => rfl
  | cons entry rest ih =>
    cases entry with
    | remark r => exact ih s
    | notice e n => exact ih (s.enqueue e).1

/-- The listener hears all that is notified, if there is one. -/
theorem heard_deliver_eq (s : Site) (j : Journal) :
    heard (s.deliver j).2 = if s.listening then j.notices else [] := by
  cases hs : s.listening with
  | true => exact heard_deliver j hs
  | false =>
    rw [if_neg Bool.false_ne_true]
    induction j generalizing s with
    | nil => rfl
    | cons entry rest ih =>
      cases entry with
      | remark r => exact ih s hs
      | notice e n =>
        have hs' : (s.enqueue e).1.listening = false := by
          obtain ⟨qs, h⟩ := s.enqueue_eq e
          rw [h]
          exact hs
        have hrest := ih (s.enqueue e).1 hs'
        simp only [deliver, deliverEntry, hs, heard_append, heard_enqueue, hrest,
          Bool.false_eq_true, if_false, List.append_nil]
        rfl

theorem arrive_eq (s : Site) {id : Nat} {ref : BlockRef} (href : s.memory.ref? id = some ref) :
    let out := s.hub.arrive (s.aliveWith id) s.memory ref
    let delivery := { s with hub := out.1, memory := out.2.1 }.deliver out.2.2.2
    s.arrive id = (delivery.1, out.2.2.1, delivery.2) := by
  simp only [arrive, href]
  rfl

/-! ### Reports after a run -/

/-- **A report concerns one network.** After every run, a block that comes or goes
leaves every network of another name as it is, under its handle. If the table of
a block that comes is malformed, no network is changed: the block is put into
the list of blocks, the event that it came goes to the queue in use, and the
listener hears of it. -/
theorem isolated_report (config : Config) (actions : List Action) {id : Nat} {ref : BlockRef}
    (href : ((ofConfig config).run actions).memory.ref? id = some ref) :
    let s := (ofConfig config).run actions
    let notice := s.hub.blockNotice .newMemoryBlock ref.identity
    (∀ h n, n.name ≠ ref.identity.network →
      ((s.arrive id).1.hub.registry.networks.get? h = some n ↔
        s.hub.registry.networks.get? h = some n) ∧
      ((s.depart id).1.hub.registry.networks.get? h = some n ↔
        s.hub.registry.networks.get? h = some n)) ∧
    ∀ why, (s.arrive id).2.1 = .error (.malformed why) →
      (s.arrive id).1 = ({ s with hub := s.hub.receive ref }.enqueue notice.1).1 ∧
      heard (s.arrive id).2.2 = if s.listening then [notice] else [] := by
  have hs := sound_run (s := ofConfig config) (Hub.sound_ofConfig config) actions
  have hr := recorded_run (s := ofConfig config) (Hub.sound_ofConfig config)
    (fun b hb => absurd hb List.not_mem_nil) actions
  generalize (ofConfig config).run actions = s at href hs hr
  intro _ notice
  have harrival := Hub.arrival hs.registry (s.aliveWith id) s.memory ref
  have hdeparture := Hub.departure hs.registry s.isAlive id
  have harrive := s.arrive_eq href
  simp only at harrive
  constructor
  · intro h n hne
    constructor
    · rw [harrive]
      simp only [hub_deliver]
      exact harrival.others hne
    · have hdepart : (s.depart id).1.hub = (s.hub.depart s.isAlive id).1 := s.hub_act_depart id
      rw [hdepart]
      refine hdeparture.others (fun b hb hid => ?_) hne
      have hb' := hr b hb
      rw [hid, href, Option.some_inj] at hb'
      rw [hb']
  · intro why he
    rw [harrive] at he ⊢
    obtain ⟨hhub, hmemory, hnotices⟩ := harrival.malformed he
    constructor
    · rw [deliver_fst, Journal.events, hnotices, hhub, hmemory]
      rfl
    · rw [heard_deliver_eq, hnotices]

/-- A table that ends too early. -/
def brokenInfo (device : String) (number : UInt32) (network : String) : Block where
  identity := .ofNames "info" device number network
  bytes := Utf8.ofString "\x7b"

/-- A device has arrived, and there is a block of another network with a broken
table. -/
def brokenArrival : List Action :=
  [.publish (infoBlock "gina" 1), .arrive 0, .publish (brokenInfo "bolt" 2 "m")]

theorem run_brokenArrival :
    ((ofConfig .default).run brokenArrival).hub.registry.networks.items.map
      (fun n => n.name.text) = ["n"] ∧
    ((ofConfig .default).run brokenArrival).memory.ref? 1 =
      some ⟨1, (brokenInfo "bolt" 2 "m").identity⟩ ∧
    (((ofConfig .default).run brokenArrival).arrive 1).2.1 =
      .error (.malformed .infoSyntax) := by decide +kernel

/-- The network of the first device stays as it is when the broken table comes
or its block goes, and all that is done for the broken table is to keep its
block and to tell of it. -/
theorem isolated_brokenInfo :
    let s := (ofConfig .default).run brokenArrival
    let notice := s.hub.blockNotice .newMemoryBlock (brokenInfo "bolt" 2 "m").identity
    s.memory.ref? 1 = some ⟨1, (brokenInfo "bolt" 2 "m").identity⟩ ∧
      (s.arrive 1).2.1 = .error (.malformed .infoSyntax) ∧
      (s.arrive 1).1 = ({ s with
        hub := s.hub.receive ⟨1, (brokenInfo "bolt" 2 "m").identity⟩ }.enqueue notice.1).1 ∧
      ∃ h n, n.name ≠ (brokenInfo "bolt" 2 "m").identity.network ∧
        s.hub.registry.networks.get? h = some n ∧
        (s.arrive 1).1.hub.registry.networks.get? h = some n ∧
        (s.depart 1).1.hub.registry.networks.get? h = some n := by
  obtain ⟨hnames, href, herror⟩ := run_brokenArrival
  obtain ⟨hothers, hmalformed⟩ := isolated_report .default brokenArrival href
  obtain ⟨n, hn, hname⟩ := List.map_eq_singleton_iff.1 hnames
  have hs := sound_run (s := ofConfig .default) (Hub.sound_ofConfig .default) brokenArrival
  obtain ⟨h, hg⟩ := (Index.mem_items hs.registry.networks n).1 (hn ▸ List.mem_singleton_self n)
  have hne : n.name ≠ (brokenInfo "bolt" 2 "m").identity.network := by
    intro he
    have htext := congrArg Name.text he
    rw [hname] at htext
    exact absurd htext (by decide)
  exact ⟨href, herror, (hmalformed _ herror).1, h, n, hne, hg, (hothers h n hne).1.2 hg,
    (hothers h n hne).2.2 hg⟩

end Site
end SignalRegistry
