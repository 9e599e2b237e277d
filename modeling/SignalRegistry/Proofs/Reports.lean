/-
# What comes of a report

Connections report to the hub that a block has come or is about to go. This
module says once what a report does and what is notified of it, case by case:
`Hub.Arrival` of a block that comes and `Hub.Departure` of one that goes. Of all
that can be done at a site only these two are notified (`Site.effect`): a
listener hears nothing of the rest.

Key definitions: `Hub.Arrival`, `Hub.Departure`, `Site.hears`, `Site.hearing`,
`Site.Throughout`, `Site.Effect`, `Site.Admits`.
Key theorems: `Hub.arrival`, `Hub.departure`, `Site.effect`.
-/
import SignalRegistry.Proofs.Announcement
import SignalRegistry.Proofs.Run

namespace SignalRegistry

open Registry (Notice greeting farewell deviceNotice)

namespace Hub

variable {config : Config} {hub : Hub} {alive : Nat → Bool} {memory : Memory} {block : BlockRef}

/-- The notice of a block, with the network of its name as it is at the time. -/
def blockNotice (hub : Hub) (kind : Event.Kind) (i : BlockIdentity) : Notice :=
  (.ofBlock kind i, hub.registry.named? i.network.text)

/-- The hub with one more block in its list. -/
def receive (hub : Hub) (block : BlockRef) : Hub := { hub with blocks := hub.blocks ++ [block] }

/-- The size that bounds the signals of a device in its block of a name. There
is none if the block is not there, or is going to be grown. -/
def sizeBound (hub : Hub) (memory : Memory) (i : BlockIdentity) (name : String) : Option Nat :=
  if hub.config.resizeBlocks then none
  else (hub.deviceBlock? i name).map fun b => memory.size b.id

/-- What is done for a block that has come, what is answered and what is
notified. -/
inductive Arrival (alive : Nat → Bool) (hub : Hub) (memory : Memory) (block : BlockRef) :
    Hub × Memory × Except Error Unit × Journal → Prop where
  /-- The hub holds it already. -/
  | known (held : hub.holds block.id = true) :
      Arrival alive hub memory block (hub, memory, .ok (), [])
  /-- A block of data gets a shortcut in its network. -/
  | data (new : hub.holds block.id = false) (kind : block.identity.holdsTable = false)
      {r : Registry} {journal : Journal}
      (updates : hub.registry.Updates r block.identity.network.text
        ((hub.registry.named? block.identity.network.text).map fun n => (n.link block).1))
      (notices : journal.notices = [hub.blockNotice .newMemoryBlock block.identity]) :
      Arrival alive hub memory block
        ({ registry := r, blocks := hub.blocks ++ [block] }, memory, .ok (), journal)
  /-- The table of a device is malformed, or the name of its network. -/
  | rejected (new : hub.holds block.id = false) (kind : block.identity.holdsTable = true)
      {why : Defect} {journal : Journal}
      (reason : Layout.parse (memory.bytes block.id) = .error why ∨
        ¬ Network.Accepts block.identity.network)
      (notices : journal.notices = [hub.blockNotice .newMemoryBlock block.identity]) :
      Arrival alive hub memory block (hub.receive block, memory, .error (.malformed why), journal)
  /-- A device is registered, and its blocks are grown if they are to be. -/
  | registered (new : hub.holds block.id = false) (kind : block.identity.holdsTable = true)
      {layouts : List Layout} {n m : Network} {r : Registry} {grown : Memory}
      {result : Except Error Unit} {journal : Journal}
      (table : Layout.parse (memory.bytes block.id) = .ok layouts)
      (before : hub.registry.provided block.identity.network.text = .ok n)
      (after : m = (Registry.register alive n block
        (Registry.declared block.identity
          ((hub.receive block).sizeBound memory block.identity) layouts)).1)
      (updates : hub.registry.Updates r block.identity.network.text (some m))
      (growth : (grown, result) = if hub.config.resizeBlocks then
        (hub.receive block).growBlocks block.identity memory layouts else (memory, .ok ()))
      (notices : journal.notices = hub.blockNotice .newMemoryBlock block.identity ::
        ((if n.phase = .active then [] else [greeting m]) ++
          [deviceNotice .newDevice block.identity m])) :
      Arrival alive hub memory block
        ({ registry := r, blocks := hub.blocks ++ [block] }, grown, result, journal)

/-- The growth of blocks depends on the list of blocks only. -/
theorem growBlocks_congr (hub hub' : Hub) (hb : hub'.blocks = hub.blocks) (i : BlockIdentity)
    (layouts : List Layout) (memory : Memory) :
    hub'.growBlocks i memory layouts = hub.growBlocks i memory layouts := by
  have hdev : ∀ name, hub'.deviceBlock? i name = hub.deviceBlock? i name := by
    intro name
    unfold deviceBlock? blockNamed?
    rw [hb]
  induction layouts generalizing memory with
  | nil => rfl
  | cons l more ih =>
    unfold growBlocks
    rw [hdev]
    cases hub.deviceBlock? i l.block with
    | none => exact ih memory
    | some b =>
      simp only
      split
      · exact ih _
      · rfl

/-- The arrival of a block with a table, by what its registration gives. -/
theorem arrive_table (hh : hub.holds block.id = false) (ht : block.identity.holdsTable = true)
    {r : Registry} {result : Except Error (List Layout)} {j : Journal}
    (hreg : hub.registry.registerDevice alive block (memory.bytes block.id)
      ((hub.receive block).sizeBound memory block.identity) = (r, result, j)) :
    hub.arrive alive memory block =
      let hub' : Hub := { registry := r, blocks := hub.blocks ++ [block] }
      let arrival := hub.registry.notice .newMemoryBlock
        (hub.registry.handleOf? block.identity.network.text) (some block.identity)
      match result with
      | .error e => (hub', memory, .error e, arrival :: j)
      | .ok layouts =>
        let growth := if hub.config.resizeBlocks then hub'.growBlocks block.identity memory layouts
          else (memory, .ok ())
        (hub', growth.1, growth.2, arrival :: j) := by
  unfold sizeBound receive at hreg
  unfold arrive
  rw [if_neg (by simp [hh])]
  simp only [ht, if_true, hreg]
  cases result with
  | error e => rfl
  | ok layouts =>
    simp only
    split
    · rename_i hc
      have hc' : hub.config.resizeBlocks = true := hc
      rw [if_pos hc']
    · rename_i hc
      have hc' : ¬ hub.config.resizeBlocks = true := hc
      rw [if_neg hc']

theorem arrival (hr : hub.registry.WellFormed) (alive : Nat → Bool) (memory : Memory)
    (block : BlockRef) : Arrival alive hub memory block (hub.arrive alive memory block) := by
  cases hh : hub.holds block.id with
  | true =>
    have he : hub.arrive alive memory block = (hub, memory, .ok (), []) := by
      unfold arrive
      rw [if_pos hh]
    rw [he]
    exact .known hh
  | false =>
    cases ht : block.identity.holdsTable with
    | false =>
      have he : hub.arrive alive memory block =
          ({ registry := (hub.registry.linkBlock block).1, blocks := hub.blocks ++ [block] },
            memory, .ok (), [hub.registry.notice .newMemoryBlock
              (hub.registry.handleOf? block.identity.network.text) (some block.identity)]) := by
        unfold arrive
        rw [if_neg (by simp [hh])]
        simp [ht]
      rw [he]
      exact .data hh ht (Registry.linkBlock_spec hr block) rfl
    | true =>
      rcases Registry.registerDevice_spec hr alive block (memory.bytes block.id)
          ((hub.receive block).sizeBound memory block.identity) with
        ⟨why, j, hwhy, hreg, hj⟩ | ⟨r, layouts, j, n, m, hreg, hl, hp, hm, hu, hj⟩
      · rw [arrive_table hh ht hreg]
        exact .rejected hh ht hwhy (congrArg (hub.blockNotice .newMemoryBlock block.identity :: ·) hj)
      · have hgrow : ({ registry := r, blocks := hub.blocks ++ [block] } : Hub).growBlocks
            block.identity memory layouts =
            (hub.receive block).growBlocks block.identity memory layouts :=
          growBlocks_congr (hub.receive block) ⟨r, hub.blocks ++ [block]⟩ rfl _ _ _
        rw [arrive_table hh ht hreg]
        refine .registered hh ht hl hp hm hu ?_ (congrArg (hub.blockNotice .newMemoryBlock
          block.identity :: ·) hj)
        rw [hgrow]

theorem Arrival.blocks {out : Hub × Memory × Except Error Unit × Journal}
    (ha : Arrival alive hub memory block out) :
    out.1.blocks = if hub.holds block.id then hub.blocks else hub.blocks ++ [block] := by
  cases ha with
  | known held => rw [if_pos held]
  | data new kind updates notices => rw [new, if_neg Bool.false_ne_true]
  | rejected new kind reason notices =>
    rw [new, if_neg Bool.false_ne_true]
    rfl
  | registered new kind table before after updates growth notices =>
    rw [new, if_neg Bool.false_ne_true]

/-- A new table that is not rejected is registered. -/
theorem Arrival.accepted {out : Hub × Memory × Except Error Unit × Journal}
    (ha : Arrival alive hub memory block out) (hnew : hub.holds block.id = false)
    (htable : block.identity.holdsTable = true)
    (hok : ∀ why, out.2.2.1 ≠ .error (.malformed why)) :
    ∃ layouts n, Layout.parse (memory.bytes block.id) = .ok layouts ∧
      hub.registry.provided block.identity.network.text = .ok n ∧
      hub.registry.Updates out.1.registry block.identity.network.text
        (some (Registry.register alive n block (Registry.declared block.identity
          ((hub.receive block).sizeBound memory block.identity) layouts)).1) ∧
      (out.2.1, out.2.2.1) = if hub.config.resizeBlocks then
        (hub.receive block).growBlocks block.identity memory layouts else (memory, .ok ()) := by
  cases ha with
  | known held =>
    rw [hnew] at held
    cases held
  | data _ kind updates notices =>
    rw [htable] at kind
    cases kind
  | rejected _ _ reason notices => exact absurd rfl (hok _)
  | @registered _ _ layouts n m r grown result journal table before after updates growth notices =>
    exact ⟨layouts, n, table, before, after ▸ updates, growth⟩

/-- What is done for a block that goes, what is answered and what is
notified. -/
inductive Departure (alive : Nat → Bool) (hub : Hub) (id : Nat) :
    Hub × Except Error Unit × Journal → Prop where
  /-- The hub does not hold it. -/
  | unknown (absent : hub.holds id = false) :
      Departure alive hub id (hub, .error (.notFound .block), [])
  /-- Its network is not there. -/
  | alone {block : BlockRef} (held : block ∈ hub.blocks) (is : block.id = id)
      (absent : hub.registry.named? block.identity.network.text = none) {journal : Journal}
      (notices : journal.notices = [hub.blockNotice .memoryBlockDeleted block.identity]) :
      Departure alive hub id
        ({ hub with blocks := hub.blocks.eraseP fun b => b.id == id }, .ok (), journal)
  /-- Its network forgets it, and ends if it was the last to have a shortcut. -/
  | forgotten {block : BlockRef} (held : block ∈ hub.blocks) (is : block.id = id) {n : Network}
      (before : hub.registry.named? block.identity.network.text = some n)
      {r : Registry} {journal : Journal}
      (updates : hub.registry.Updates r block.identity.network.text
        (hub.registry.afterForget alive block n))
      (notices : journal.notices = hub.blockNotice .memoryBlockDeleted block.identity ::
        ((if block.identity.holdsTable then [deviceNotice .deviceDisconnected block.identity n]
          else []) ++
        if n.phase = .active ∧ (n.forget alive block).1.shortcuts.isEmpty then
          [farewell (n.forget alive block).1] else [])) :
      Departure alive hub id
        ({ registry := r, blocks := hub.blocks.eraseP fun b => b.id == id }, .ok (), journal)

/-- The block that goes is held no longer, and the others are. -/
theorem Departure.mem_blocks_iff {id : Nat} {out : Hub × Except Error Unit × Journal}
    (hd : Departure alive hub id out) (hs : hub.Sound config) {b : BlockRef} :
    b ∈ out.1.blocks ↔ b ∈ hub.blocks ∧ b.id ≠ id := by
  cases hd with
  | unknown absent =>
    exact (and_iff_left_of_imp fun hb => id_ne_of_not_holds absent hb).symm
  | alone held is absent notices => exact mem_eraseP_iff hs.blocks
  | forgotten held is before updates notices => exact mem_eraseP_iff hs.blocks

theorem departure (hr : hub.registry.WellFormed) (alive : Nat → Bool) (id : Nat) :
    Departure alive hub id (hub.depart alive id) := by
  unfold depart
  split
  · rename_i hf
    refine .unknown (Bool.eq_false_of_not_eq_true fun hh => ?_)
    obtain ⟨b, hb, hid⟩ := (hub.holds_iff id).1 hh
    exact List.find?_eq_none.1 hf b hb (beq_iff_eq.2 hid)
  · rename_i block hf
    have hid : block.id = id := by simpa using List.find?_some hf
    have hmem : block ∈ hub.blocks := List.mem_of_find?_eq_some hf
    cases hn : hub.registry.named? block.identity.network.text with
    | none =>
      simp only [Registry.forget_none hr alive hn]
      exact .alone hmem hid hn rfl
    | some n =>
      obtain ⟨hu, hj⟩ := Registry.forget_spec hr alive block hn
      exact .forgotten hmem hid hn hu
        (congrArg (hub.blockNotice .memoryBlockDeleted block.identity :: ·) hj)

/-- A path is resolved as a selector is. -/
theorem resolvePath_resolves (alive : Nat → Bool) (hub : Hub) (memory : Memory) (path : String)
    (own : Option String) : ∃ ids,
      (hub.resolvePath alive memory path own).1 = (hub.resolve alive memory ids).1 ∧
        (hub.resolvePath alive memory path own).2.2.notices =
          (hub.resolve alive memory ids).2.2.notices := by
  unfold resolvePath
  simp only
  split
  all_goals
    rename_i he
    have hfst := congrArg Prod.fst he
    have hnotices := congrArg (fun out => out.2.2.notices) he
    simp only at hfst hnotices
    refine ⟨_, hfst.symm, Eq.trans ?_ hnotices.symm⟩
    simp

theorem notices_getPath (alive : Nat → Bool) (hub : Hub) (memory : Memory) (path : String) :
    (hub.getPath alive memory path).2.2.notices =
      (hub.resolvePath alive memory path none).2.2.notices := by
  unfold getPath
  split <;> rename_i he <;> rw [he]

theorem notices_setPath (alive : Nat → Bool) (hub : Hub) (memory : Memory) (path : String)
    (value : Value) : (hub.setPath alive memory path value).2.2.2.notices =
      (hub.resolvePath alive memory path none).2.2.notices := by
  unfold setPath
  split <;> rename_i he <;> rw [he]

end Hub

/-! ### What is heard -/

namespace Site

/-- What is delivered while an action is done. -/
def delivered (s : Site) : Action → List Delivery
  | .arrive id => (s.arrive id).2.2
  | .depart id => (s.depart id).2.2
  | .resolve ids => (s.resolve ids).2.2
  | .resolvePath path own => (s.resolvePath path own).2.2
  | .getPath path => (s.getPath path).2.2
  | .setPath path value => (s.setPath path value).2.2
  | .push i e => (s.push i e).2.2
  | .shutDown => s.shutDown.2
  | _ => []

/-- What a listener hears of an action, if there is one. -/
def hears (s : Site) (a : Action) : List Notice := heard ({ s with listening := true }.delivered a)

/-- What a listener hears of a sequence of actions. -/
def hearing (s : Site) : List Action → List Notice
  | [] => []
  | a :: actions => s.hears a ++ (s.act a).hearing actions

theorem hearing_append (s : Site) (actions more : List Action) :
    s.hearing (actions ++ more) = s.hearing actions ++ (s.run actions).hearing more := by
  induction actions generalizing s with
  | nil => rfl
  | cons a actions ih =>
    rw [List.cons_append, hearing, hearing, ih, List.append_assoc]
    rfl

theorem hearing_concat (s : Site) (actions : List Action) (a : Action) :
    s.hearing (actions ++ [a]) = s.hearing actions ++ (s.run actions).hears a := by
  rw [hearing_append, hearing, hearing, List.append_nil]

theorem run_concat (s : Site) (actions : List Action) (a : Action) :
    s.run (actions ++ [a]) = (s.run actions).act a := s.run_append actions [a]

/-- Each action of a run is one that `P` allows in the state it is done in. -/
def Throughout (P : Site → Action → Prop) : Site → List Action → Prop
  | _, [] => True
  | s, a :: actions => P s a ∧ Throughout P (s.act a) actions

theorem throughout_concat {P : Site → Action → Prop} (s : Site) (actions : List Action)
    (a : Action) :
    Throughout P s (actions ++ [a]) ↔ Throughout P s actions ∧ P (s.run actions) a := by
  induction actions generalizing s with
  | nil => exact and_comm
  | cons first actions ih =>
    show P s first ∧ Throughout P (s.act first) (actions ++ [a]) ↔ _
    rw [ih, ← and_assoc]
    exact Iff.rfl

theorem throughout_of_getElem? {P : Site → Action → Prop} {s : Site} {actions : List Action}
    (h : ∀ k a, actions[k]? = some a → P (s.run (actions.take k)) a) : Throughout P s actions := by
  induction actions generalizing s with
  | nil => trivial
  | cons first actions ih => exact ⟨h 0 first rfl, ih fun k a hget => h (k + 1) a hget⟩

theorem throughout_of_forall {P : Site → Action → Prop} {actions : List Action}
    (h : ∀ s, ∀ a ∈ actions, P s a) (s : Site) : Throughout P s actions :=
  throughout_of_getElem? fun _ a hget => h _ a (List.mem_of_getElem? hget)

/-- The blocks that are alive when a block has just come. -/
def aliveWith (s : Site) (id : Nat) (k : Nat) : Bool := s.isAlive k || k == id

/-- What an action does to the hub, and what is heard of it. -/
inductive Effect (s : Site) (a : Action) : Prop where
  /-- A block has come. -/
  | arrived {id : Nat} {ref : BlockRef} (is : a = .arrive id) (ref? : s.memory.ref? id = some ref)
      {out : Hub × Memory × Except Error Unit × Journal}
      (arrival : Hub.Arrival (s.aliveWith id) s.hub s.memory ref out)
      (hub : (s.act a).hub = out.1) (hears : s.hears a = out.2.2.2.notices)
  /-- A block goes. -/
  | departed {id : Nat} (is : a = .depart id) {out : Hub × Except Error Unit × Journal}
      (departure : Hub.Departure s.isAlive s.hub id out)
      (hub : (s.act a).hub = out.1) (hears : s.hears a = out.2.2.notices)
  /-- A selector is resolved. -/
  | resolved (ids : Selector) (hub : (s.act a).hub = (s.hub.resolve s.isAlive s.memory ids).1)
      (hears : s.hears a = [])
  /-- The hub is shut down. -/
  | ended (is : a = .shutDown) (hub : (s.act a).hub = s.hub.shutDown.1) (hears : s.hears a = [])
  /-- The hub stays as it is. -/
  | idle (hub : (s.act a).hub = s.hub) (hears : s.hears a = [])

/-! ### Each action -/

theorem isAlive_listening (s : Site) (listening : Bool) :
    ({ s with listening := listening } : Site).isAlive = s.isAlive := rfl

theorem hears_arrive (s : Site) {id : Nat} {ref : BlockRef} (href : s.memory.ref? id = some ref) :
    s.hears (.arrive id) = (s.hub.arrive (s.aliveWith id) s.memory ref).2.2.2.notices := by
  simp only [hears, delivered, arrive, href, isAlive_listening]
  exact heard_deliver _ rfl

theorem hears_depart (s : Site) (id : Nat) :
    s.hears (.depart id) = (s.hub.depart s.isAlive id).2.2.notices := by
  simp only [hears, delivered, depart, isAlive_listening]
  generalize s.hub.depart s.isAlive id = out
  exact heard_deliver _ rfl

theorem hears_resolve (s : Site) (ids : Selector) :
    s.hears (.resolve ids) = (s.hub.resolve s.isAlive s.memory ids).2.2.notices := by
  simp only [hears, delivered, resolve, isAlive_listening]
  generalize s.hub.resolve s.isAlive s.memory ids = out
  exact heard_deliver _ rfl

theorem hears_resolvePath (s : Site) (path : String) (own : Option String) :
    s.hears (.resolvePath path own) =
      (s.hub.resolvePath s.isAlive s.memory path own).2.2.notices := by
  simp only [hears, delivered, resolvePath, isAlive_listening]
  generalize s.hub.resolvePath s.isAlive s.memory path own = out
  exact heard_deliver _ rfl

theorem hears_getPath (s : Site) (path : String) :
    s.hears (.getPath path) = (s.hub.resolvePath s.isAlive s.memory path none).2.2.notices := by
  rw [← Hub.notices_getPath]
  simp only [hears, delivered, getPath, isAlive_listening]
  generalize s.hub.getPath s.isAlive s.memory path = out
  exact heard_deliver _ rfl

theorem hears_setPath (s : Site) (path : String) (value : Value) :
    s.hears (.setPath path value) =
      (s.hub.resolvePath s.isAlive s.memory path none).2.2.notices := by
  rw [← Hub.notices_setPath _ _ _ path value]
  simp only [hears, delivered, setPath, isAlive_listening]
  generalize s.hub.setPath s.isAlive s.memory path value = out
  exact heard_deliver _ rfl

theorem hub_act_arrive (s : Site) {id : Nat} {ref : BlockRef}
    (href : s.memory.ref? id = some ref) :
    (s.act (.arrive id)).hub = (s.hub.arrive (s.aliveWith id) s.memory ref).1 := by
  simp only [act, arrive, href, hub_deliver]
  rfl

theorem hub_act_depart (s : Site) (id : Nat) :
    (s.act (.depart id)).hub = (s.hub.depart s.isAlive id).1 := by
  simp only [act, depart, hub_deliver]

theorem hub_act_shutDown (s : Site) : (s.act .shutDown).hub = s.hub.shutDown.1 := by
  simp only [act, shutDown, hub_deliver]

theorem effect {config : Config} {s : Site} (hs : s.hub.Sound config) (a : Action) :
    s.Effect a := by
  have hquiet := hs.notices_resolve (fun b => s.isAlive_of_mem) s.memory
  cases a with
  | arrive id =>
    cases href : s.memory.ref? id with
    | none =>
      refine .idle ?_ ?_
      · simp only [act, arrive, href]
      · simp only [hears, delivered, arrive, href]
        rfl
    | some ref =>
      exact .arrived rfl href (Hub.arrival hs.registry _ s.memory ref) (s.hub_act_arrive href)
        (s.hears_arrive href)
  | depart id =>
    exact .departed rfl (Hub.departure hs.registry s.isAlive id) (s.hub_act_depart id)
      (s.hears_depart id)
  | resolve ids =>
    refine .resolved ids ?_ ((s.hears_resolve ids).trans (hquiet ids))
    simp only [act, resolve, hub_deliver]
  | resolvePath path own =>
    obtain ⟨ids, hhub, hnotices⟩ := Hub.resolvePath_resolves s.isAlive s.hub s.memory path own
    refine .resolved ids ?_ ?_
    · simp only [act, resolvePath, hub_deliver, hhub]
    · rw [hears_resolvePath, hnotices, hquiet]
  | getPath path =>
    obtain ⟨ids, hhub, hnotices⟩ := Hub.resolvePath_resolves s.isAlive s.hub s.memory path none
    refine .resolved ids ?_ ?_
    · simp only [act, getPath, hub_deliver, Hub.getPath_fst, hhub]
    · rw [hears_getPath, hnotices, hquiet]
  | setPath path value =>
    obtain ⟨ids, hhub, hnotices⟩ := Hub.resolvePath_resolves s.isAlive s.hub s.memory path none
    refine .resolved ids ?_ ?_
    · simp only [act, setPath, hub_deliver, Hub.setPath_fst, hhub]
    · rw [hears_setPath, hnotices, hquiet]
  | shutDown => exact .ended rfl s.hub_act_shutDown rfl
  | push i e =>
    refine .idle ?_ (heard_push _ i e)
    simp only [act, hub_push]
  | openQueue depth mask => exact .idle (s.hub_openQueue depth mask) rfl
  | openConfiguredQueue => exact .idle (s.hub_openQueue _ _) rfl
  | closeQueue => exact .idle s.hub_clearQueue rfl
  | publish block => exact .idle rfl rfl
  | letGo id => exact .idle rfl rfl
  | changeBlock id f => exact .idle rfl rfl
  | allot grants => exact .idle rfl rfl
  | find path => exact .idle rfl rfl
  | write b value state => exact .idle rfl rfl
  | listen listening => exact .idle rfl rfl
  | changeQueue i f => exact .idle rfl rfl

/-- A block comes that the hub does not hold yet. -/
def Admits (s : Site) (a : Action) (ref : BlockRef) : Prop :=
  ∃ id, a = .arrive id ∧ s.memory.ref? id = some ref ∧ s.hub.holds ref.id = false

theorem eq_arrive_of_admits {s : Site} {a : Action} {ref : BlockRef} (ha : s.Admits a ref) :
    a = .arrive ref.id := by
  obtain ⟨id, rfl, href, -⟩ := ha
  rw [Memory.id_of_ref? href]

/-- One block comes at a time. -/
theorem Admits.unique {s : Site} {a : Action} {ref ref' : BlockRef} (h : s.Admits a ref)
    (h' : s.Admits a ref') : ref = ref' := by
  obtain ⟨id, rfl, href, -⟩ := h
  obtain ⟨id', he, href', -⟩ := h'
  obtain rfl := Action.arrive.inj he
  exact Option.some.inj (href.symm.trans href')

/-- A block of the hub was there before, or comes now. -/
theorem Effect.mem_blocks {config : Config} {s : Site} (hs : s.hub.Sound config) {a : Action}
    (he : s.Effect a) {b : BlockRef} (hb : b ∈ (s.act a).hub.blocks) :
    b ∈ s.hub.blocks ∨ s.Admits a b := by
  cases he with
  | @arrived id ref is href out arrival hub hears =>
    rw [hub, arrival.blocks] at hb
    cases hnew : s.hub.holds ref.id with
    | true =>
      rw [hnew, if_pos rfl] at hb
      exact Or.inl hb
    | false =>
      rw [hnew, if_neg Bool.false_ne_true, List.mem_append, List.mem_singleton] at hb
      rcases hb with hb | rfl
      · exact Or.inl hb
      · exact Or.inr ⟨id, is, href, hnew⟩
  | departed is departure hub hears =>
    rw [hub] at hb
    exact Or.inl ((departure.mem_blocks_iff hs).1 hb).1
  | resolved ids hub hears =>
    rw [hub, (hs.resolves (fun b => s.isAlive_of_mem) s.memory ids).blocks] at hb
    exact Or.inl hb
  | ended is hub hears =>
    rw [hub] at hb
    exact absurd hb List.not_mem_nil
  | idle hub hears =>
    rw [hub] at hb
    exact Or.inl hb

/-- A block of the hub stays unless it goes, or the hub is shut down. -/
theorem mem_blocks_act {config : Config} {s : Site} (hs : s.hub.Sound config) {a : Action}
    {b : BlockRef} (hb : b ∈ s.hub.blocks) (hstays : a ≠ .depart b.id) (ha : a ≠ .shutDown) :
    b ∈ (s.act a).hub.blocks := by
  cases effect hs a with
  | arrived is href arrival hub hears =>
    rw [hub, arrival.blocks]
    split
    · exact hb
    · exact List.mem_append_left _ hb
  | departed is departure hub hears =>
    rw [hub]
    refine (departure.mem_blocks_iff hs).2 ⟨hb, fun hid => hstays ?_⟩
    rw [is, hid]
  | resolved ids hub hears =>
    rw [hub, (hs.resolves (fun b => s.isAlive_of_mem) s.memory ids).blocks]
    exact hb
  | ended is hub hears => exact absurd is ha
  | idle hub hears =>
    rw [hub]
    exact hb

theorem mem_blocks_of_admits {config : Config} {s : Site} (hs : s.hub.Sound config) {a : Action}
    {b : BlockRef} (ha : s.Admits a b) : b ∈ (s.act a).hub.blocks := by
  obtain ⟨id, rfl, href, hnew⟩ := ha
  rw [s.hub_act_arrive href, (Hub.arrival hs.registry _ s.memory b).blocks, hnew,
    if_neg Bool.false_ne_true]
  exact List.mem_append_right _ (List.mem_singleton_self b)

theorem mem_blocks_depart_iff {config : Config} {s : Site} (hs : s.hub.Sound config) (id : Nat)
    {b : BlockRef} : b ∈ (s.act (.depart id)).hub.blocks ↔ b ∈ s.hub.blocks ∧ b.id ≠ id := by
  rw [hub_act_depart]
  exact (Hub.departure hs.registry s.isAlive id).mem_blocks_iff hs

end Site
end SignalRegistry
