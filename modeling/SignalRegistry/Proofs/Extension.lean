/-
# Blocks with more bytes at their end

A block that is grown gets zeros at its end, and nothing else is changed. If the blocks
of a device are grown to the same layouts in two hubs, one of which has a block more,
then only this block may be longer in the end (`Memory.Extends.growBlocks`), and a signal
that lies within it as it was has the same value (`Memory.Extends.valueAt_eq`).

Key definitions: `Memory.Extends`.
Key theorems: `Memory.Extends.grow`, `Memory.Extends.growBlocks`,
`Memory.Extends.valueAt_eq`.
-/
import SignalRegistry.Proofs.DeviceNotices
import SignalRegistry.Proofs.PathValue

namespace SignalRegistry

theorem Block.exists_of_growWithin {m m' : Block} {grants : Nat → Bool} {size : Nat}
    (h : m.growWithin grants size = .ok m') : ∃ more, m' = { m with bytes := m.bytes ++ more } := by
  unfold growWithin at h
  simp only at h
  split at h
  · obtain rfl := Except.ok.inj h
    exact ⟨[], by rw [List.append_nil]⟩
  · split at h
    · exact ⟨_, (Except.ok.inj h).symm⟩
    · cases h

namespace Memory

/-- The second memory has more bytes at the end of one block, and is else the
same. -/
structure Extends (id : Nat) (m m' : Memory) : Prop where
  grants : m'.grants = m.grants
  others : ∀ k, k ≠ id → m'.block? k = m.block? k
  extended : ∃ b more, m.block? id = some b ∧ m'.block? id = some { b with bytes := b.bytes ++ more }

namespace Extends

variable {id : Nat} {m m' : Memory}

theorem refl {ref : BlockRef} (href : m.ref? id = some ref) : Extends id m m := by
  obtain ⟨b, hb, -⟩ := Option.map_eq_some_iff.1 href
  exact ⟨rfl, fun k _ => rfl, b, [], hb, by rw [List.append_nil]; exact hb⟩

/-- Another block is changed in both alike. -/
theorem change (h : Extends id m m') {k : Nat} (hk : k ≠ id) {f : Block → Except Error Block}
    {next next' : Memory} (hn : m.change k f = (next, .ok ()))
    (hn' : m'.change k f = (next', .ok ())) : Extends id next next' := by
  have hsame : ∀ j, j ≠ k → next.block? j = m.block? j ∧ next'.block? j = m'.block? j := by
    intro j hj
    have hleft := m.block?_change_of_ne hj f
    have hright := m'.block?_change_of_ne hj f
    rw [hn] at hleft
    rw [hn'] at hright
    exact ⟨hleft, hright⟩
  constructor
  · have hleft := m.grants_change k f
    have hright := m'.grants_change k f
    rw [hn] at hleft
    rw [hn'] at hright
    exact hright.trans (h.grants.trans hleft.symm)
  · intro j hj
    by_cases hjk : j = k
    · obtain ⟨b, changed, hb, hf, hnext⟩ := block?_change_ok hn
      obtain ⟨b', changed', hb', hf', hnext'⟩ := block?_change_ok hn'
      have hbb : b' = b := Option.some.inj (hb'.symm.trans ((h.others k hk).trans hb))
      rw [hbb, hf, Except.ok.injEq] at hf'
      rw [hjk, hnext, hnext', hbb, hf']
    · rw [(hsame j hjk).1, (hsame j hjk).2, h.others j hj]
  · obtain ⟨b, more, hb, hb'⟩ := h.extended
    exact ⟨b, more, (hsame id hk.symm).1.trans hb, (hsame id hk.symm).2.trans hb'⟩

/-- The block is grown in the second. -/
theorem grow (h : Extends id m m') {size : Nat} {next : Memory}
    (hn : m'.grow id size = (next, .ok ())) : Extends id m next := by
  unfold Memory.grow at hn
  constructor
  · have hkept := m'.grants_change id fun b => b.growWithin (m'.grants id) size
    rw [hn] at hkept
    exact hkept.trans h.grants
  · intro k hk
    have hkept := m'.block?_change_of_ne hk fun b => b.growWithin (m'.grants id) size
    rw [hn] at hkept
    exact hkept.trans (h.others k hk)
  · obtain ⟨b, more, hb, hb'⟩ := h.extended
    obtain ⟨old, grown, hold, hgrow, hnext⟩ := block?_change_ok hn
    obtain rfl := Option.some.inj (hb'.symm.trans hold)
    obtain ⟨zeros, rfl⟩ := Block.exists_of_growWithin hgrow
    refine ⟨b, more ++ zeros, hb, hnext.trans ?_⟩
    rw [List.append_assoc]

theorem size_le (h : Extends id m m') : m.size id ≤ m'.size id := by
  obtain ⟨b, more, hb, hb'⟩ := h.extended
  rw [size_eq_of_block? hb, size_eq_of_block? hb']
  show b.bytes.length ≤ (b.bytes ++ more).length
  rw [List.length_append]
  omega

/-- A signal that does not run past the end in the first has the same value in
both. -/
theorem valueAt_eq (h : Extends id m m') {ref : BlockRef} {t : Signal}
    (hstop : ref.id = id → t.stop ≤ m.size ref.id) : m'.valueAt ref t = m.valueAt ref t := by
  by_cases hid : ref.id = id
  · obtain ⟨b, more, hb, hb'⟩ := h.extended
    rw [← hid] at hb hb'
    exact valueAt_append hb hb' (hstop hid)
  · unfold valueAt
    rw [h.others ref.id hid]

end Extends
end Memory

namespace Hub

variable {hub hub' : Hub} {i : BlockIdentity} {data : BlockRef}

/-- A block of the device that stands first in the list is the one of its name. -/
theorem deviceBlock?_cons (hblocks : hub'.blocks = data :: hub.blocks)
    (howner : data.identity.owner = i.owner) (name : String) :
    hub'.deviceBlock? i name =
      if data.identity.block.text = name then some data else hub.deviceBlock? i name := by
  simp only [BlockIdentity.owner, Device.mk.injEq] at howner
  obtain ⟨hdevice, hnumber, hnetwork⟩ := howner
  unfold deviceBlock? blockNamed?
  rw [hblocks, List.find?_cons, hdevice.symm, hnumber.symm, hnetwork.symm]
  simp only [BlockIdentity.isOf, beq_self_eq_true, Bool.true_and, Bool.and_true]
  by_cases hname : data.identity.block.text = name
  · rw [if_pos hname, beq_iff_eq.2 hname]
  · rw [if_neg hname, beq_eq_false_iff_ne.2 hname]

theorem mem_of_deviceBlock? {name : String} {b : BlockRef} (hb : hub.deviceBlock? i name = some b) :
    b ∈ hub.blocks := (blockNamed?_eq_some hb).1

/-- A block that is not in the list is not grown. -/
theorem block?_growBlocks {k : Nat} (hk : ∀ b ∈ hub.blocks, b.id ≠ k) {layouts : List Layout}
    {memory grown : Memory} (h : hub.growBlocks i memory layouts = (grown, .ok ())) :
    grown.block? k = memory.block? k := by
  induction layouts generalizing memory with
  | nil =>
    obtain rfl := (Prod.mk.inj h).1
    rfl
  | cons l more ih =>
    cases hblock : hub.deviceBlock? i l.block with
    | none =>
      rw [growBlocks_of_none hblock] at h
      exact ih h
    | some b =>
      obtain ⟨next, hchange, hrest⟩ := growBlocks_of_some hblock h
      have hkept := memory.block?_change_of_ne (hk b (mem_of_deviceBlock? hblock)).symm
        fun m => m.growWithin (memory.grants b.id) l.size.toNat
      rw [← Memory.grow, hchange] at hkept
      exact (ih hrest).trans hkept

end Hub

/-- Blocks are grown alike whether or not there is one more, which is grown in
addition. By induction on the layouts. -/
theorem Memory.Extends.growBlocks {hub hub' : Hub} {i : BlockIdentity} {data : BlockRef}
    (hblocks : hub'.blocks = data :: hub.blocks) (howner : data.identity.owner = i.owner)
    (hid : ∀ b ∈ hub.blocks, b.id ≠ data.id)
    (hname : ∀ b ∈ hub.blocks, b.identity.block.text ≠ data.identity.block.text)
    {layouts : List Layout} {m m' grown grown' : Memory} (h : Extends data.id m m')
    (hg : hub.growBlocks i m layouts = (grown, .ok ()))
    (hg' : hub'.growBlocks i m' layouts = (grown', .ok ())) : Extends data.id grown grown' := by
  induction layouts generalizing m m' with
  | nil =>
    obtain rfl := (Prod.mk.inj hg).1
    obtain rfl := (Prod.mk.inj hg').1
    exact h
  | cons l more ih =>
    have hblock' := Hub.deviceBlock?_cons hblocks howner l.block
    by_cases hl : data.identity.block.text = l.block
    · rw [if_pos hl] at hblock'
      obtain ⟨next, hchange, hrest⟩ := Hub.growBlocks_of_some hblock' hg'
      rw [Hub.growBlocks_of_none (Hub.deviceBlock?_eq_none (hl ▸ hname))] at hg
      exact ih (h.grow hchange) hg hrest
    · rw [if_neg hl] at hblock'
      cases hblock : hub.deviceBlock? i l.block with
      | none =>
        rw [hblock] at hblock'
        rw [Hub.growBlocks_of_none hblock] at hg
        rw [Hub.growBlocks_of_none hblock'] at hg'
        exact ih h hg hg'
      | some b =>
        rw [hblock] at hblock'
        obtain ⟨next, hchange, hrest⟩ := Hub.growBlocks_of_some hblock hg
        obtain ⟨next', hchange', hrest'⟩ := Hub.growBlocks_of_some hblock' hg'
        unfold Memory.grow at hchange hchange'
        rw [h.grants] at hchange'
        exact ih (h.change (hid b (Hub.mem_of_deviceBlock? hblock)) hchange hchange') hrest hrest'

end SignalRegistry
