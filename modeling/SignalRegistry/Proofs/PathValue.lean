/-
# The value at a path

A path is read at its first match: the signal that was entered first of those
that it selects. If no two blocks of a hub have one identity, the signal is read
in the block that has the identity it names, and has no value if there is none or
if it runs past the end of it (`Site.getPath_eq`).

Key definitions: `Memory.valueAt`, `Site.valueOf`.
Key theorems: `Memory.valueAt_ne_unavailable_iff`, `Hub.Sound.resolve_signal`,
`Site.getPath_eq`.
-/
import SignalRegistry.Proofs.Stability
import SignalRegistry.Proofs.Usability

namespace SignalRegistry

namespace Memory

/-- The value of a signal in a block, if it does not run past the end. -/
def valueAt (m : Memory) (ref : BlockRef) (t : Signal) : Value :=
  match m.block? ref.id with
  | some b => (b.readSignal t.address.toNat t.count.toNat t.type).value
  | none => .unavailable

theorem valueAt_ne_unavailable_iff (m : Memory) (ref : BlockRef) (t : Signal) :
    m.valueAt ref t ≠ .unavailable ↔ t.stop ≤ m.size ref.id := by
  unfold valueAt
  cases hb : m.block? ref.id with
  | none =>
    have hsize : m.size ref.id = 0 := size_of_block?_eq_none hb
    have hpos := t.stop_pos
    refine iff_of_false (fun h => h rfl) ?_
    omega
  | some b =>
    rw [size_eq_of_block? hb]
    constructor
    · intro hvalue
      by_contra hstop
      refine hvalue ?_
      have hnone : b.signalBytes? t.address.toNat t.count.toNat t.type = none :=
        if_neg fun hlies => hstop hlies.2
      simp only [Block.readSignal, hnone]
      rfl
    · intro hstop
      refine Block.readSignal_ne_unavailable ?_
      exact (Block.signalBytes?_isSome_iff _ _ _ _).2 ⟨t.stop_le_sizeLimit, hstop⟩

theorem valueAt_eq_unavailable {m : Memory} {ref : BlockRef} {t : Signal}
    (h : ¬ t.stop ≤ m.size ref.id) : m.valueAt ref t = .unavailable :=
  not_not.1 fun hne => h ((m.valueAt_ne_unavailable_iff ref t).1 hne)

/-- Bytes after the end of a signal do not matter. -/
theorem valueAt_append {m m' : Memory} {ref : BlockRef} {b : Block} {more : Octets}
    (hm : m.block? ref.id = some b)
    (hm' : m'.block? ref.id = some { b with bytes := b.bytes ++ more }) {t : Signal}
    (hstop : t.stop ≤ m.size ref.id) : m'.valueAt ref t = m.valueAt ref t := by
  rw [size_eq_of_block? hm] at hstop
  have hlies : t.address.toNat + t.type.extent t.count.toNat ≤ b.bytes.length := hstop
  have hbytes : (b.bytes ++ more).drop t.address.toNat =
      b.bytes.drop t.address.toNat ++ more := List.drop_append_of_le_length (by omega)
  have hlength : t.type.extent t.count.toNat ≤ (b.bytes.drop t.address.toNat).length := by
    rw [List.length_drop]
    omega
  have hread : Block.readBytes { b with bytes := b.bytes ++ more } t.address.toNat
      (t.type.extent t.count.toNat) = b.readBytes t.address.toNat (t.type.extent t.count.toNat) := by
    unfold Block.readBytes
    rw [hbytes, List.take_append_of_le_length hlength]
  have hsignal : Block.signalBytes? { b with bytes := b.bytes ++ more } t.address.toNat
      t.count.toNat t.type = b.signalBytes? t.address.toNat t.count.toNat t.type := by
    have hsize : b.size ≤ Block.size { b with bytes := b.bytes ++ more } := by
      simp [Block.size]
    have hlimit := t.stop_le_sizeLimit
    unfold Block.signalBytes?
    simp only
    rw [hread, if_pos ⟨hlimit, hstop.trans hsize⟩, if_pos ⟨hlimit, hstop⟩]
  unfold valueAt
  simp only [hm, hm', Block.readSignal, hsignal]

end Memory

/-! ### The signal of a path -/

namespace Hub

variable {config : Config} {hub : Hub} {alive : Nat → Bool}

/-- A path is resolved to its first match. -/
theorem Sound.resolve_signal (hs : hub.Sound config)
    (halive : ∀ b ∈ hub.blocks, alive b.id = true) (memory : Memory) (path : String) :
    (hub.resolve alive memory (hub.selector .signal path)).2.1.map Binding.signal =
      (hub.matching path).head? := by
  rw [hs.matching_eq]
  generalize hub.selector .signal path = ids
  have hcases := resolve_eq_or_locates hs.registry alive memory ids
  by_cases hempty : ids.signal.isEmpty = true
  · rw [if_pos hempty]
    rcases hcases with hnone | ⟨h, k, n, t, hl⟩
    · rw [hnone]
      rfl
    · exact absurd ((Name.isEmpty_iff ids.signal).1 hempty) hl.signal_ne_empty
  rw [if_neg hempty, List.head?_filter]
  cases hn : hub.registry.named? ids.network.text with
  | none =>
    rcases hcases with hnone | ⟨h, k, n, t, hl⟩
    · unfold Registry.signalsOf
      rw [hnone, hn]
      rfl
    · rw [hl.named? hs.registry] at hn
      cases hn
  | some n =>
    have hne : ids.signal.text ≠ "" := fun htext => hempty ((Name.isEmpty_iff ids.signal).2 htext)
    have hbound := congrArg (Option.map Prod.snd) (hs.resolve_binding halive memory hne hn)
    rw [Option.map_map, Option.map_map] at hbound
    rw [Registry.signalsOf_of_named? hn]
    exact hbound.trans Option.map_id'

end Hub

/-! ### The value at a path -/

namespace Site

variable {config : Config} {s : Site}

/-- The value of a signal of a network: in the first block that has the identity
that it names. -/
def valueOf (s : Site) (network : NetworkName) (t : Signal) : Value :=
  match s.hub.blocks.find? fun m => m.identity = t.blockIn network with
  | some m => s.memory.valueAt m t
  | none => .unavailable

theorem valueOf_ne_unavailable_iff (s : Site) (network : NetworkName) (t : Signal) :
    s.valueOf network t ≠ .unavailable ↔
      ∃ m, s.hub.blocks.find? (fun m => m.identity = t.blockIn network) = some m ∧
        t.stop ≤ s.memory.size m.id := by
  unfold valueOf
  cases s.hub.blocks.find? fun m => m.identity = t.blockIn network with
  | none => simp
  | some m => simpa using s.memory.valueAt_ne_unavailable_iff m t

theorem resolve_answer (s : Site) (ids : Selector) :
    (s.resolve ids).2.1 = (s.hub.resolve s.isAlive s.memory ids).2.1 := rfl

theorem getPath_answer (s : Site) (path : String) : (s.getPath path).2.1 =
    match (s.resolvePath path none).2.1 with
    | some b => (s.read b).value
    | none => .unavailable := by
  rw [resolvePath_answer]
  unfold getPath Hub.getPath read
  generalize s.hub.resolvePath s.isAlive s.memory path none = out
  obtain ⟨hub, bound, journal⟩ := out
  cases bound <;> rfl

/-- The first block that may hold the signal of a binding is the first that has the
identity that the signal names. -/
theorem first?_eq (s : Site) (b : Binding) : b.first? s.hub =
    s.hub.blocks.find? fun m => m.identity = b.signal.blockIn b.network := by
  unfold Binding.first? Hub.blockNamed?
  refine List.find?_congr fun m _ => ?_
  rw [Bool.eq_iff_iff, Bool.and_eq_true, beq_iff_eq, decide_eq_true_eq]
  constructor
  · rintro ⟨hnet, hof⟩
    exact (BlockIdentity.isOf_iff (j := b.signal.blockIn b.network) (Name.ext hnet)).1 hof
  · intro hid
    rw [hid]
    exact ⟨rfl, (BlockIdentity.isOf_iff rfl).2 rfl⟩

theorem read_of_bound {b : Binding} {m : BlockRef} (hb : b.block = some m)
    (halive : s.isAlive m.id = true) : (s.read b).value = s.memory.valueAt m b.signal := by
  unfold read Binding.read Memory.valueAt
  simp only [hb]
  cases s.memory.block? m.id with
  | none => rfl
  | some block => simp only [halive, if_true]

theorem read_of_unbound {b : Binding} (hb : b.block = none) : (s.read b).value = .unavailable := by
  unfold read Binding.read
  rw [hb]
  rfl

/-- A binding to the first block of the list, or to none, has the value of its
signal there. -/
theorem BindsFirst.read_value {b : Binding} (hfirst : s.BindsFirst b) :
    (s.read b).value = s.valueOf b.network b.signal := by
  unfold BindsFirst at hfirst
  rw [first?_eq] at hfirst
  unfold valueOf
  cases hfind : s.hub.blocks.find? fun m => m.identity = b.signal.blockIn b.network with
  | none =>
    rw [hfind, Option.filter_none] at hfirst
    exact read_of_unbound hfirst
  | some m =>
    rw [hfind, Option.filter_some] at hfirst
    by_cases hfits : b.fits s.memory m = true
    · rw [if_pos hfits] at hfirst
      exact read_of_bound hfirst (s.isAlive_of_mem (List.mem_of_find?_eq_some hfind))
    · rw [if_neg hfits] at hfirst
      have hstop : ¬ b.signal.stop ≤ s.memory.size m.id := fun hle => hfits (decide_eq_true hle)
      exact (read_of_unbound hfirst).trans (Memory.valueAt_eq_unavailable hstop).symm

/-- If no two blocks have one identity, a path has the value of its first match. -/
theorem getPath_eq (hs : s.hub.Sound config) (ho : s.hub.InOrder)
    (hdistinct : (s.hub.blocks.map (·.identity)).Nodup) (path : String) :
    (s.getPath path).2.1 =
      (s.hub.matching path).head?.elim .unavailable
        (s.valueOf (s.hub.selector .signal path).network) := by
  have hbinding : (s.resolvePath path none).2.1 = (s.resolve (s.hub.selector .signal path)).2.1 := by
    rw [resolvePath_answer, resolve_answer, Hub.resolvePath_binding]
  have hanswer : (s.resolve (s.hub.selector .signal path)).2.1.map Binding.signal =
      (s.hub.matching path).head? := by
    rw [resolve_answer]
    exact hs.resolve_signal (fun b => s.isAlive_of_mem) s.memory path
  rw [getPath_answer, ← hanswer, ← hbinding]
  cases hb : (s.resolvePath path none).2.1 with
  | none => rfl
  | some b =>
    have hfirst : s.BindsFirst b :=
      bindsFirst_of_linked_or_distinct (block_of_resolvePath hs ho hb) (Or.inr hdistinct)
    have hbound := boundTo_of_resolve hs (.refl _) (hbinding.symm.trans hb)
    show (s.read b).value = s.valueOf (s.hub.selector .signal path).network b.signal
    rw [← hbound.network]
    exact hfirst.read_value

end Site
end SignalRegistry
