/-
# A binding stays usable

A signal is bound to a block that it fits into when the path is resolved. From
then on neither the signal of the binding nor its block is looked up again, so
it does not matter what becomes of the networks: blocks may grow but never
shrink, whatever is done to them (`Site.size_le_run`), so the signal goes on to
lie within its block. As long as a connection or the hub holds the block, it is
read and written without fail; when none holds it any more, nothing is there to
be read or written, and so it stays (`Site.usable_run`).

Key definitions: `Block.Edit`, `Site.Action.Edits`.
Key theorems: `Signal.stop_le_sizeLimit`, `Block.Edit.size_le`,
`Site.size_le_run`, `Site.isAlive_run_eq_false`, `Site.usable_run`.
-/
import SignalRegistry.Proofs.Binding
import SignalRegistry.Proofs.Fit

namespace SignalRegistry

/-! ### Signals within their block -/

namespace ElementType

theorem extent_le (type : ElementType) (n : Nat) : type.extent n ≤ 8 * n + 9 := by
  have hsize : type.size ≤ 8 := by cases type <;> decide
  unfold extent
  split
  · split <;> omega
  · have hmul : max n 1 * type.size ≤ max n 1 * 8 := Nat.mul_le_mul_left _ hsize
    omega

theorem decode_ne_unavailable (type : ElementType) (bytes : Octets) :
    type.decode bytes ≠ .unavailable := by
  cases type <;> exact Value.noConfusion

end ElementType

/-- With address and count below 2^32, no signal runs past the largest size. -/
theorem Signal.stop_le_sizeLimit (s : Signal) : s.stop ≤ sizeLimit := by
  have haddress : s.address.toNat < UInt32.size := s.address.toNat_lt
  have hcount : s.count.toNat < UInt32.size := s.count.toNat_lt
  have hextent := s.type.extent_le s.count.toNat
  unfold Signal.stop Signal.extent sizeLimit
  have hsize : UInt32.size + (8 * UInt32.size + 9) < UInt64.size := by decide
  omega

theorem Signal.stop_pos (s : Signal) : 0 < s.stop := by
  have hextent : 0 < s.extent := s.type.extent_pos s.count.toNat
  unfold Signal.stop
  omega

namespace Block

variable {m m' : Block} {address n : Nat} {type : ElementType}

theorem decodeBody_ne_unavailable (type : ElementType) (n : Nat) (state : UInt8) (body : Octets) :
    decodeBody type n state body ≠ .unavailable := by
  unfold decodeBody
  split
  · split <;> exact Value.noConfusion
  · exact Value.noConfusion
  · split
    · exact type.decode_ne_unavailable body
    · exact Value.noConfusion

/-- A signal that lies in the block has a value. -/
theorem readSignal_ne_unavailable (h : (m.signalBytes? address n type).isSome = true) :
    (m.readSignal address n type).value ≠ .unavailable := by
  obtain ⟨bytes, hbytes⟩ := Option.isSome_iff_exists.1 h
  obtain ⟨state, body, rfl, -⟩ := exists_cons_of_signalBytes? hbytes
  unfold readSignal
  rw [hbytes]
  exact decodeBody_ne_unavailable type n state body

/-- Writing a signal changes bytes in their place. -/
theorem size_writeSignal {value : Value} {state : UInt8}
    (h : m.writeSignal address n type value state = .ok m') : m'.size = m.size := by
  unfold writeSignal at h
  cases hbytes : m.signalBytes? address n type with
  | none =>
    simp only [hbytes] at h
    cases h
  | some bytes =>
    obtain ⟨old, body, rfl, hlength⟩ := exists_cons_of_signalBytes? hbytes
    have hstop : address + type.extent n ≤ m.size :=
      ((signalBytes?_isSome_iff m address n type).1 (by rw [hbytes]; rfl)).2
    simp only [hbytes] at h
    obtain rfl := Except.ok.inj h
    refine length_overwrite ?_
    rw [List.length_cons]
    -- The body keeps its length, whether the value is written or cleared.
    split
    · rw [length_encodeBody, hlength]
      exact hstop
    · show address + (body.length + 1) ≤ m.size
      omega

/-- What connections can do to the bytes of a block. It grows as far as the allocator
grants at the time. -/
inductive Edit where
  | writeBytes (address : Nat) (data : Octets)
  | writeSignal (address n : Nat) (type : ElementType) (value : Value) (state : UInt8)
  | grow (grants : Nat → Bool) (size : Nat)

def Edit.apply : Edit → Block → Except Error Block
  | .writeBytes address data => fun m => m.writeBytes address data
  | .writeSignal address n type value state => fun m => m.writeSignal address n type value state
  | .grow grants size => fun m => m.growWithin grants size

/-- No edit shrinks a block. -/
theorem Edit.size_le (e : Edit) {m m' : Block} (h : e.apply m = .ok m') : m.size ≤ m'.size := by
  cases e with
  | writeBytes address data =>
    obtain ⟨hrange, rfl⟩ := (writeBytes_eq_ok_iff m m' address data).1 h
    exact Nat.le_of_eq (length_overwrite hrange).symm
  | writeSignal address n type value state => exact Nat.le_of_eq (size_writeSignal h).symm
  | grow grants size => exact (size_le_of_growWithin h).1

end Block

/-! ### No block shrinks -/

theorem Memory.size_le_publish (m : Memory) (block : Block) (k : Nat) :
    m.size k ≤ (m.publish block).1.size k := by
  simp only [publish, size, bytes, block?, Array.getElem?_push]
  by_cases hk : k = m.blocks.size
  · rw [hk, Array.getElem?_eq_none (Nat.le_refl _)]
    exact Nat.zero_le _
  · rw [if_neg hk]

theorem Binding.size_le_write (alive : Nat → Bool) (memory : Memory) (b : Binding) (value : Value)
    (state : UInt8) (k : Nat) : memory.size k ≤ (b.write alive memory value state).1.size k := by
  unfold write
  split
  · exact Nat.le_refl _
  · split
    · refine memory.size_le_change _ (fun m m' hwrite => ?_) k
      exact Nat.le_of_eq (Block.size_writeSignal hwrite).symm
    · exact Nat.le_refl _

namespace Hub

variable {hub : Hub} {alive : Nat → Bool} {memory : Memory} {block : BlockRef}

theorem size_le_growBlocks (hub : Hub) (i : BlockIdentity) (memory : Memory)
    (layouts : List Layout) (k : Nat) :
    memory.size k ≤ (hub.growBlocks i memory layouts).1.size k := by
  induction layouts generalizing memory with
  | nil => exact Nat.le_refl _
  | cons l more ih =>
    unfold growBlocks
    split
    · exact ih memory
    · rename_i b _
      have hchange := memory.size_le_grow b.id l.size.toNat k
      split
      · rename_i grown he
        rw [he] at hchange
        exact hchange.trans (ih grown)
      · rename_i grown e he
        rw [he] at hchange
        exact hchange

theorem Arrival.size_le {out : Hub × Memory × Except Error Unit × Journal}
    (ha : Arrival alive hub memory block out) (k : Nat) : memory.size k ≤ out.2.1.size k := by
  cases ha with
  | known held => exact Nat.le_refl _
  | data new kind updates notices => exact Nat.le_refl _
  | rejected new kind reason notices => exact Nat.le_refl _
  | @registered new kind layouts n m r grown result journal table before after updates growth notices =>
    show memory.size k ≤ grown.size k
    split at growth
    · have hgrown : grown = _ := congrArg Prod.fst growth
      rw [hgrown]
      exact size_le_growBlocks _ _ _ _ k
    · have hgrown : grown = memory := congrArg Prod.fst growth
      rw [hgrown]

end Hub

namespace Site

variable {config : Config} {s : Site} {a : Action}

/-- If the action changes a block, it is by an edit. -/
def Action.Edits (a : Action) : Prop := ∀ id f, a = .changeBlock id f → ∃ e : Block.Edit, f = e.apply

theorem size_le_act (hs : s.hub.Sound config) (ha : a.Edits) (k : Nat) :
    s.memory.size k ≤ (s.act a).memory.size k := by
  have hclear : s.memory.size k ≤ s.clearQueue.memory.size k := by rw [memory_clearQueue]
  cases a with
  | publish block => exact s.memory.size_le_publish block k
  | changeBlock id f =>
    obtain ⟨e, rfl⟩ := ha id f rfl
    exact s.memory.size_le_change id (fun _ _ => e.size_le) k
  | arrive id =>
    cases href : s.memory.ref? id with
    | none => simp only [act, arrive, href, le_refl]
    | some ref =>
      simp only [act, s.arrive_eq href, memory_deliver]
      exact (Hub.arrival hs.registry (s.aliveWith id) s.memory ref).size_le k
  | setPath path value =>
    simp only [act, setPath, memory_deliver]
    unfold Hub.setPath
    split
    · exact Binding.size_le_write _ _ _ _ _ k
    · exact Nat.le_refl _
  | write b value state => exact b.size_le_write _ _ _ _ k
  | depart id => simp only [act, depart, memory_deliver, le_refl]
  | resolve ids => simp only [act, resolve, memory_deliver, le_refl]
  | resolvePath path own => simp only [act, resolvePath, memory_deliver, le_refl]
  | getPath path => simp only [act, getPath, memory_deliver, le_refl]
  | push i e =>
    obtain ⟨qs, hq⟩ := s.push_eq i e
    simp only [act, hq, le_refl]
  | shutDown =>
    simp only [act, shutDown, memory_deliver]
    exact hclear
  | closeQueue => exact hclear
  | openQueue depth mask => exact hclear
  | openConfiguredQueue => exact hclear
  | letGo id => exact Nat.le_refl _
  | allot grants => exact Nat.le_refl _
  | find path => exact Nat.le_refl _
  | listen listening => exact Nat.le_refl _
  | changeQueue i f => exact Nat.le_refl _

/-- By induction on the run: no block is smaller in the end. -/
theorem size_le_run (hs : s.hub.Sound config) {actions : List Action}
    (ha : ∀ a ∈ actions, a.Edits) (k : Nat) : s.memory.size k ≤ (s.run actions).memory.size k := by
  induction actions generalizing s with
  | nil => exact Nat.le_refl _
  | cons a actions ih =>
    have hedits := List.forall_mem_cons.1 ha
    calc s.memory.size k ≤ (s.act a).memory.size k := size_le_act hs hedits.1 k
      _ ≤ ((s.act a).run actions).memory.size k := ih (sound_act hs a) hedits.2

/-! ### What is gone stays gone -/

theorem isAlive_eq_false_iff (s : Site) (k : Nat) :
    s.isAlive k = false ↔ k ∉ s.held ∧ ∀ b ∈ s.hub.blocks, b.id ≠ k := by
  simp [isAlive, Hub.holds]

theorem held_deliver (s : Site) (j : Journal) : (s.deliver j).1.held = s.held := by
  obtain ⟨_, h⟩ := deliver_eq j s
  rw [h]

theorem held_clearQueue (s : Site) : s.clearQueue.held = s.held := by
  unfold clearQueue
  split <;> rfl

/-- A connection holds what it has held, or has just published. -/
theorem mem_held_act (s : Site) (a : Action) {k : Nat} (hk : k ∈ (s.act a).held) :
    k ∈ s.held ∨ k = s.memory.blocks.size := by
  have hclear : s.clearQueue.held = s.held := s.held_clearQueue
  cases a with
  | publish block => exact (List.mem_cons.1 hk).symm
  | letGo id => exact Or.inl (List.mem_of_mem_erase hk)
  | arrive id =>
    left
    cases href : s.memory.ref? id with
    | none => simpa only [act, arrive, href] using hk
    | some ref => simpa only [act, s.arrive_eq href, held_deliver] using hk
  | depart id =>
    left
    simpa only [act, depart, held_deliver] using hk
  | resolve ids =>
    left
    simpa only [act, resolve, held_deliver] using hk
  | resolvePath path own =>
    left
    simpa only [act, resolvePath, held_deliver] using hk
  | getPath path =>
    left
    simpa only [act, getPath, held_deliver] using hk
  | setPath path value =>
    left
    simpa only [act, setPath, held_deliver] using hk
  | push i e =>
    left
    obtain ⟨qs, hq⟩ := s.push_eq i e
    simpa only [act, hq] using hk
  | shutDown =>
    left
    simp only [act, shutDown, held_deliver] at hk
    exact hclear ▸ hk
  | closeQueue => exact Or.inl (hclear ▸ hk)
  | openQueue depth mask => exact Or.inl (hclear ▸ hk)
  | openConfiguredQueue => exact Or.inl (hclear ▸ hk)
  | changeBlock id f => exact Or.inl hk
  | allot grants => exact Or.inl hk
  | write b value state => exact Or.inl hk
  | find path => exact Or.inl hk
  | listen listening => exact Or.inl hk
  | changeQueue i f => exact Or.inl hk

/-- The block that is reported, if one is, is alive: a connection cannot report
what nothing holds. -/
def ReportsAlive (s : Site) (a : Action) : Prop := ∀ id, a = .arrive id → s.isAlive id = true

/-- A block that is gone does not come back: its number is not given out again. -/
theorem isAlive_act_eq_false (hs : s.hub.Sound config) {k : Nat} {ref : BlockRef}
    (href : s.memory.ref? k = some ref) (ha : s.ReportsAlive a) (hk : s.isAlive k = false) :
    (s.act a).isAlive k = false := by
  obtain ⟨hheld, hblocks⟩ := (s.isAlive_eq_false_iff k).1 hk
  refine ((s.act a).isAlive_eq_false_iff k).2 ⟨fun hmem => ?_, fun b hb hid => ?_⟩
  · rcases s.mem_held_act a hmem with hold | hnew
    · exact hheld hold
    · obtain ⟨b, hb, -⟩ := Option.map_eq_some_iff.1 href
      have hlt : k < s.memory.blocks.size := (Array.getElem?_eq_some_iff.1 hb).1
      omega
  · rcases (effect hs a).mem_blocks hs hb with hmem | hadmits
    · exact hblocks b hmem hid
    · have halive := ha b.id (eq_arrive_of_admits hadmits)
      rw [hid, hk] at halive
      cases halive

theorem isAlive_run_eq_false (hs : s.hub.Sound config) {k : Nat} {ref : BlockRef}
    (href : s.memory.ref? k = some ref) (hk : s.isAlive k = false) {actions : List Action}
    (ha : Throughout ReportsAlive s actions) : (s.run actions).isAlive k = false := by
  induction actions generalizing s with
  | nil => exact hk
  | cons a actions ih =>
    exact ih (sound_act hs a) (ref?_act hs a href) (isAlive_act_eq_false hs href ha.1 hk) ha.2

theorem ref?_run (hs : s.hub.Sound config) {k : Nat} {ref : BlockRef}
    (href : s.memory.ref? k = some ref) (actions : List Action) :
    (s.run actions).memory.ref? k = some ref := by
  induction actions generalizing s with
  | nil => exact href
  | cons a actions ih => exact ih (sound_act hs a) (ref?_act hs a href)

end Site

/-! ### Bindings -/

namespace Binding

variable {alive : Nat → Bool} {memory : Memory} {b : Binding} {m : BlockRef}

/-- A block that is large enough for a signal is there, and the signal lies in it. -/
theorem exists_block_of_fits (hfits : b.fits memory m = true) :
    ∃ block, memory.block? m.id = some block ∧ (block.signalBytes? b.signal.address.toNat
      b.signal.count.toNat b.signal.type).isSome = true := by
  have hstop : b.signal.stop ≤ memory.size m.id := of_decide_eq_true hfits
  have hpos := b.signal.stop_pos
  cases hm : memory.block? m.id with
  | none =>
    have hzero : memory.size m.id = 0 := Memory.size_of_block?_eq_none hm
    omega
  | some block =>
    rw [Memory.size_eq_of_block? hm] at hstop
    exact ⟨block, rfl, (Block.signalBytes?_isSome_iff _ _ _ _).2 ⟨b.signal.stop_le_sizeLimit, hstop⟩⟩

theorem read_ne_unavailable (hb : b.block = some m) (hfits : b.fits memory m = true)
    (halive : alive m.id = true) : (b.read alive memory).value ≠ .unavailable := by
  obtain ⟨block, hm, hbytes⟩ := exists_block_of_fits hfits
  unfold read
  simp only [hb, hm, halive, if_true]
  exact Block.readSignal_ne_unavailable hbytes

theorem write_ok (hb : b.block = some m) (hfits : b.fits memory m = true)
    (halive : alive m.id = true) (value : Value) (state : UInt8) :
    (b.write alive memory value state).2 = .ok () := by
  obtain ⟨block, hm, hbytes⟩ := exists_block_of_fits hfits
  have hok := (Block.writeSignal_isOk_iff block _ _ _ value state).2 hbytes
  unfold write Memory.change
  simp only [hb, hm, halive, if_true]
  cases hwrite : block.writeSignal b.signal.address.toNat b.signal.count.toNat b.signal.type value
      state with
  | ok changed => rfl
  | error e =>
    rw [hwrite] at hok
    cases hok

theorem read_of_gone (hb : b.block = some m) (hgone : alive m.id = false) :
    b.read alive memory = .none := by
  unfold read
  simp only [hb, hgone, Bool.false_eq_true, if_false]
  split <;> rfl

theorem write_of_gone (hb : b.block = some m) (hgone : alive m.id = false) (value : Value)
    (state : UInt8) : b.write alive memory value state = (memory, .error (.notFound .block)) := by
  unfold write
  simp only [hb, hgone, Bool.false_eq_true, if_false]

end Binding

namespace Site

variable {config : Config}

/-- **A binding can be used as long as its block is held.** A path is bound to a
signal and a block in any reachable state, and then anything is done: blocks are
reported and taken away, signals are registered again with another layout, bytes
and signals are written and blocks are grown. As long as a connection or the hub
holds the block, the binding reads a value and writes any value and state. When
none holds it, the binding reads nothing and cannot write, and as connections
report only blocks that are alive, this is so for ever. -/
theorem usable_run (config : Config) (actions : List Action) {path : String} {own : Option String}
    {b : Binding} {m : BlockRef}
    (hb : (((ofConfig config).run actions).resolvePath path own).2.1 = some b)
    (hm : b.block = some m) {later : List Action} (hedits : ∀ a ∈ later, a.Edits) :
    let s := (ofConfig config).run (actions ++ .resolvePath path own :: later)
    (s.isAlive m.id = true → (s.read b).value ≠ .unavailable ∧
      ∀ value state, (s.write b value state).2 = .ok ()) ∧
    (s.isAlive m.id = false →
      (s.read b = .none ∧ ∀ value state, s.write b value state = (s, .error (.notFound .block))) ∧
      ∀ more, Throughout ReportsAlive s more → (s.run more).isAlive m.id = false) := by
  have hstart : (ofConfig config).hub.Sound config := Hub.sound_ofConfig config
  have hs := sound_run hstart actions
  have hr := recorded_run hstart (fun b hb => absurd hb List.not_mem_nil) actions
  obtain ⟨hmem, -, hbound⟩ := bound_of_resolvePath hs hb hm
  intro s
  have hrun : s = (((ofConfig config).run actions).act (.resolvePath path own)).run later := by
    show (ofConfig config).run (actions ++ .resolvePath path own :: later) = _
    rw [run_append]
    rfl
  -- The block was large enough when the path was resolved, and is so still.
  have hfits : b.fits s.memory m = true := by
    have hstop : b.signal.stop ≤ ((ofConfig config).run actions).memory.size m.id :=
      of_decide_eq_true hbound
    have hresolve : Action.Edits (.resolvePath path own) := fun id f he => by cases he
    have hafter := size_le_run hs (List.forall_mem_cons.2 ⟨hresolve, hedits⟩) m.id
    refine decide_eq_true (hstop.trans ?_)
    rw [hrun]
    exact hafter
  refine ⟨fun halive => ?_, fun hgone => ⟨⟨?_, fun value state => ?_⟩, fun more hmore => ?_⟩⟩
  · exact ⟨Binding.read_ne_unavailable hm hfits halive, Binding.write_ok hm hfits halive⟩
  · exact Binding.read_of_gone hm hgone
  · simp only [write, Binding.write_of_gone hm hgone]
  · have hlater : s.hub.Sound config := sound_run hstart _
    have href : s.memory.ref? m.id = some m := by
      rw [hrun]
      exact ref?_run hs (hr m hmem) (.resolvePath path own :: later)
    exact isAlive_run_eq_false hlater href hgone hmore

/-- The connection of a block of data takes it away from the hub, but keeps it and
makes it grow. -/
def keptAndGrown : List Action :=
  [.depart 1, .changeBlock 1 (Block.Edit.grow (fun _ => true) 64).apply]

theorem edits_keptAndGrown : ∀ a ∈ keptAndGrown, a.Edits := by
  intro a ha id f he
  subst he
  simp only [keptAndGrown, List.mem_cons, List.not_mem_nil, or_false, reduceCtorEq, false_or,
    Action.changeBlock.injEq] at ha
  exact ⟨.grow (fun _ => true) 64, ha.2⟩

theorem held_letGo (s : Site) (id : Nat) : (s.act (.letGo id)).held = s.held.erase id := rfl

theorem isAlive_keptAndGrown {s : Site} (hs : s.hub.Sound config) (hheld : s.held = [1, 0])
    (path : String) :
    (s.run (.resolvePath path none :: keptAndGrown)).isAlive 1 = true ∧
    (s.run (.resolvePath path none :: (keptAndGrown ++ [.letGo 1]))).isAlive 1 = false := by
  have hbound : (s.act (.resolvePath path none)).hub.Sound config := sound_act hs _
  have hkept : (s.run (.resolvePath path none :: keptAndGrown)).held = [1, 0] := by
    simp only [keptAndGrown, run, List.foldl_cons, List.foldl_nil, act, changeBlock, depart,
      resolvePath, held_deliver, hheld]
  constructor
  · unfold isAlive
    rw [hkept]
    rfl
  · rw [← List.cons_append, run_concat, isAlive_eq_false_iff, held_letGo, hkept]
    refine ⟨by decide, fun b hb => ?_⟩
    -- What follows the departure changes no list of blocks.
    have hsame : ((s.run (.resolvePath path none :: keptAndGrown)).act (.letGo 1)).hub =
        ((s.act (.resolvePath path none)).act (.depart 1)).hub := by
      simp only [keptAndGrown, run, List.foldl_cons, List.foldl_nil, act, letGo, changeBlock]
    rw [hsame] at hb
    exact ((mem_blocks_depart_iff hbound 1).1 hb).2

/-- A signal bound before its block was taken away is read and written until the
connection lets go of the block. -/
theorem usable_keptAndGrown : ∃ b : Binding,
    (((ofConfig .default).run tableFirst).resolvePath "t.exp.gina1.n" none).2.1 = some b ∧
      b.block = some ⟨1, (dataBlock "gina" 1).identity⟩ ∧
      let s := (ofConfig .default).run
        (tableFirst ++ .resolvePath "t.exp.gina1.n" none :: keptAndGrown)
      let s' := (ofConfig .default).run
        (tableFirst ++ .resolvePath "t.exp.gina1.n" none :: (keptAndGrown ++ [.letGo 1]))
      (s.read b).value ≠ .unavailable ∧ (∀ value state, (s.write b value state).2 = .ok ()) ∧
        s'.read b = .none ∧
        ∀ value state, s'.write b value state = (s', .error (.notFound .block)) := by
  obtain ⟨b, hb, hblock, -⟩ := exists_of_blocksAt blocksAt_tableFirst
  have hletGo : ∀ a ∈ keptAndGrown ++ [.letGo 1], a.Edits := by
    intro a ha
    rcases List.mem_append.1 ha with hmem | hlast
    · exact edits_keptAndGrown a hmem
    · obtain rfl := List.mem_singleton.1 hlast
      exact fun id f he => by cases he
  obtain ⟨hheld, -⟩ := usable_run .default tableFirst hb hblock edits_keptAndGrown
  obtain ⟨-, hgone⟩ := usable_run .default tableFirst hb hblock hletGo
  have hs := sound_run (s := ofConfig .default) (Hub.sound_ofConfig .default) tableFirst
  obtain ⟨hkept, hlost⟩ := isAlive_keptAndGrown hs run_tableFirst.2.2 "t.exp.gina1.n"
  rw [← run_append] at hkept hlost
  obtain ⟨hread, hwrite⟩ := hheld hkept
  obtain ⟨hnone, herror⟩ := (hgone hlost).1
  exact ⟨b, hb, hblock, hread, hwrite, hnone, herror⟩

end Site
end SignalRegistry
