/-
# Signals that are left out

When blocks are not grown, a table is checked against the blocks of its device that
are there. The signals that run past the end of one are left out, and the others are
entered in the same order (`Hub.leavesOut_entered`). So the first signal that a
selector matches is the same, unless one of its identity has been left out
(`Network.LeavesOut.firstOf_eq`): then another may come first, or none.

Key definitions: `Network.LeavesOut`, `Network.firstOf`, `Signal.Overruns`.
Key theorems: `Network.LeavesOut.lastOf`, `Hub.leavesOut_entered`,
`Network.LeavesOut.firstOf_eq`, `Site.head?_matching`.
-/
import SignalRegistry.Proofs.Extension

namespace SignalRegistry

open Registry (declared signalOf fits)
open Network (placed LastOf)

namespace Network

/-- The second list is the first without some of the signals of a property. -/
inductive LeavesOut (p : Signal → Prop) : List Signal → List Signal → Prop where
  | nil : LeavesOut p [] []
  | keep {s : Signal} {signals less : List Signal} (h : LeavesOut p signals less) :
      LeavesOut p (s :: signals) (s :: less)
  | skip {s : Signal} {signals less : List Signal} (hs : p s) (h : LeavesOut p signals less) :
      LeavesOut p (s :: signals) less

namespace LeavesOut

variable {p : Signal → Prop} {signals less more others : List Signal}

theorem refl (p : Signal → Prop) (signals : List Signal) : LeavesOut p signals signals := by
  induction signals with
  | nil => exact .nil
  | cons s signals ih => exact .keep ih

theorem append (h : LeavesOut p signals less) (h' : LeavesOut p more others) :
    LeavesOut p (signals ++ more) (less ++ others) := by
  induction h with
  | nil => exact h'
  | keep _ ih => exact .keep ih
  | skip hs _ ih => exact .skip hs ih

theorem sublist (h : LeavesOut p signals less) : less.Sublist signals := by
  induction h with
  | nil => exact List.Sublist.refl _
  | keep _ ih => exact ih.cons_cons _
  | skip _ _ ih => exact ih.cons _

theorem filter (h : LeavesOut p signals less) (q : Signal → Bool) :
    LeavesOut p (signals.filter q) (less.filter q) := by
  induction h with
  | nil => exact .nil
  | @keep s _ _ _ ih =>
    by_cases hs : q s = true
    · rw [List.filter_cons_of_pos hs, List.filter_cons_of_pos hs]
      exact .keep ih
    · rw [List.filter_cons_of_neg hs, List.filter_cons_of_neg hs]
      exact ih
  | @skip s _ _ hp _ ih =>
    by_cases hs : q s = true
    · rw [List.filter_cons_of_pos hs]
      exact .skip hp ih
    · rw [List.filter_cons_of_neg hs]
      exact ih

/-- If nothing has the property, nothing is left out. -/
theorem eq_of_not (h : LeavesOut p signals less) (hp : ∀ s, ¬ p s) : less = signals := by
  induction h with
  | nil => rfl
  | keep _ ih => rw [ih]
  | skip hs _ ih => exact absurd hs (hp _)

/-- A signal without the property that is the last of its identity is so still. -/
theorem lastOf (h : LeavesOut p signals less) {t : Signal} (hlast : LastOf signals t)
    (ht : ¬ p t) : LastOf less t := by
  induction h with
  | nil => exact hlast
  | keep h ih =>
    refine (lastOf_cons _ _ _).2 (((lastOf_cons _ _ _).1 hlast).imp ih fun hs => ?_)
    exact ⟨hs.1, fun u hu => hs.2 u (h.sublist.subset hu)⟩
  | skip hs _ ih =>
    rcases (lastOf_cons _ _ _).1 hlast with hmore | ⟨rfl, -⟩
    · exact ih hmore
    · exact absurd hs ht

end LeavesOut

theorem placed_append (signals more : List (Signal × Option Nat)) :
    placed (signals ++ more) = placed signals ++ placed more := by
  unfold placed
  rw [List.filter_append, List.map_append]

/-- If a size is known, the signals that run past it are left out. -/
theorem leavesOut_placed {p : Signal → Prop} {size : Option Nat} {signals : List Signal}
    (hp : ∀ s ∈ signals, fits s size = false → p s) :
    LeavesOut p (placed (signals.map fun s => (s, none))) (placed (signals.map fun s => (s, size))) := by
  induction signals with
  | nil => exact .nil
  | cons s signals ih =>
    obtain ⟨hs, hrest⟩ := List.forall_mem_cons.1 hp
    have hall : fits s none = true := rfl
    rw [List.map_cons, List.map_cons, placed_cons_of_fits hall]
    by_cases hfits : fits s size = true
    · rw [placed_cons_of_fits hfits]
      exact .keep (ih hrest)
    · rw [placed_cons_of_not_fits hfits]
      exact .skip (hs (Bool.eq_false_of_not_eq_true hfits)) (ih hrest)

/-- The same for a table, if it says so of each block whether its size is known or
has become known. -/
theorem leavesOut_declared {p : Signal → Prop} {i : BlockIdentity}
    {sizeOf sizeOf' : String → Option Nat} {layouts : List Layout}
    (h : ∀ l ∈ layouts, sizeOf' l.block = sizeOf l.block ∨ sizeOf l.block = none ∧
      ∀ q ∈ l.signals, fits (signalOf i l.block q) (sizeOf' l.block) = false →
        p (signalOf i l.block q)) :
    LeavesOut p (placed (declared i sizeOf layouts)) (placed (declared i sizeOf' layouts)) := by
  induction layouts with
  | nil => exact .nil
  | cons l layouts ih =>
    obtain ⟨hl, hrest⟩ := List.forall_mem_cons.1 h
    unfold declared
    rw [List.flatMap_cons, List.flatMap_cons, placed_append, placed_append]
    refine LeavesOut.append ?_ (ih hrest)
    rcases hl with hsame | ⟨hnone, hover⟩
    · rw [hsame]
      exact .refl p _
    · have hsignals : ∀ size : Option Nat, (l.signals.map fun q => (signalOf i l.block q, size)) =
          (l.signals.map (signalOf i l.block)).map fun s => (s, size) := fun size => by
        rw [List.map_map]
        rfl
      rw [hsignals, hsignals, hnone]
      exact leavesOut_placed fun s hs => by
        obtain ⟨q, hq, rfl⟩ := List.mem_map.1 hs
        exact hover q hq

end Network

/-! ### The signals that are entered -/

/-- The signal is kept under the name of the block, cut to size, but runs past the end
of it. -/
def Signal.Overruns (t : Signal) (memory : Memory) (data : BlockRef) : Prop :=
  t.block = .cut 16 data.identity.block.text ∧ memory.size data.id < t.stop

namespace Hub

variable {hub hub' : Hub} {memory : Memory} {info data : BlockRef}

theorem sizeBound_of_unnamed {i : BlockIdentity} {name : String}
    (h : ∀ b ∈ hub.blocks, b.identity.block.text ≠ name) : hub.sizeBound memory i name = none := by
  unfold sizeBound
  rw [deviceBlock?_eq_none h, Option.map_none, ite_self]

/-- One more block in the list gives a size to its own name, and only if blocks are not
grown. -/
theorem sizeBound_cons (hblocks : hub'.blocks = data :: hub.blocks)
    (hconfig : hub'.config = hub.config) (howner : data.identity.owner = info.identity.owner)
    (memory : Memory) {name : String}
    (h : hub.config.resizeBlocks = true ∨ data.identity.block.text ≠ name) :
    hub'.sizeBound memory info.identity name = hub.sizeBound memory info.identity name := by
  unfold sizeBound
  rw [hconfig]
  rcases h with hresize | hname
  · rw [if_pos hresize, if_pos hresize]
  · rw [deviceBlock?_cons hblocks howner, if_neg hname]

theorem sizeBound_cons_self (hblocks : hub'.blocks = data :: hub.blocks)
    (hkeep : hub'.config.resizeBlocks = false) (howner : data.identity.owner = info.identity.owner)
    (memory : Memory) : hub'.sizeBound memory info.identity data.identity.block.text =
      some (memory.size data.id) := by
  unfold sizeBound
  rw [hkeep, if_neg Bool.false_ne_true, deviceBlock?_cons hblocks howner, if_pos rfl,
    Option.map_some]

/-- Of the signals that a table enters, those are left out that run past the end of a
block that has come before, unless it is going to be grown. -/
theorem leavesOut_entered (hblocks : hub'.blocks = data :: hub.blocks)
    (hconfig : hub'.config = hub.config) (howner : data.identity.owner = info.identity.owner)
    (hid : data.id ≠ info.id)
    (hname : ∀ b ∈ hub.blocks ++ [info], b.identity.block.text ≠ data.identity.block.text)
    (name : NetworkName) :
    Network.LeavesOut (fun t => hub.config.resizeBlocks = false ∧ t.Overruns memory data)
      (hub.entered memory info name) (hub'.entered memory info name) := by
  have hholds : hub'.holds info.id = hub.holds info.id := by
    unfold holds
    rw [hblocks, List.any_cons, beq_eq_false_iff_ne.2 hid, Bool.false_or]
  have hreceive : (hub'.receive info).blocks = data :: (hub.receive info).blocks := by
    unfold receive
    rw [hblocks, List.cons_append]
  unfold entered
  rw [hholds]
  split
  · cases Layout.parse (memory.bytes info.id) with
    | error why => exact .nil
    | ok layouts =>
      refine Network.leavesOut_declared fun l _ => ?_
      by_cases hl : data.identity.block.text = l.block
      · cases hresize : hub.config.resizeBlocks with
        | true =>
          left
          exact sizeBound_cons hreceive hconfig howner memory (Or.inl hresize)
        | false =>
          right
          have hkeep : (hub'.receive info).config.resizeBlocks = false := hconfig ▸ hresize
          refine ⟨sizeBound_of_unnamed (hl ▸ hname), fun q _ hfits => ⟨rfl, ?_, ?_⟩⟩
          · exact congrArg (Name.cut 16) hl.symm
          · rw [← hl, sizeBound_cons_self hreceive hkeep howner] at hfits
            exact Nat.lt_of_not_le (of_decide_eq_false hfits)
      · left
        exact sizeBound_cons hreceive hconfig howner memory (Or.inr hl)
  · exact .nil

/-- What is entered is of the device, whose name may have been cut, and in its network. -/
theorem of_mem_entered {name : NetworkName} {t : Signal} (ht : t ∈ hub.entered memory info name) :
    t.block.IsShort ∧ t.device = .cut 16 info.identity.device.text ∧
      t.number = info.identity.number ∧ info.identity.network = name := by
  unfold entered at ht
  split at ht
  · rename_i hnew
    split at ht
    · rename_i layouts _
      obtain ⟨l, -, q, -, rfl, -⟩ := Registry.mem_placed_declared_iff.1 ht
      exact ⟨Name.isShort_cut l.block, rfl, rfl, hnew.2.2.1⟩
    · cases ht
  · cases ht

end Hub

namespace Network

theorem OfIdentity.selects (ids : Selector) : OfIdentity (Network.selects ids) := by
  intro t u hid
  simp only [Signal.identity, Prod.mk.injEq] at hid
  obtain ⟨hname, hblock, hdevice, hnumber⟩ := hid
  unfold Network.selects Signal.agrees
  rw [hname, hblock, hdevice, hnumber]

/-- The first of these signals that a selector matches, if all are entered. -/
def firstOf (ids : Selector) (entries : List Signal) : Option Signal :=
  if ids.signal.isEmpty then none
  else ((entries.filter (Network.selects ids)).foldl enter []).head?

theorem firstOf_eq_some {ids : Selector} {entries : List Signal} {t : Signal}
    (h : firstOf ids entries = some t) :
    ids.signal.isEmpty = false ∧ LastOf entries t ∧ Network.selects ids t = true := by
  unfold firstOf at h
  split at h
  · cases h
  · rename_i hne
    have hmem := List.mem_of_head? h
    have hnil : ([] : List Signal) = [].filter (Network.selects ids) := rfl
    rw [hnil, ← filter_foldl_enter (.selects ids), List.mem_filter, mem_foldl_enter_iff] at hmem
    obtain ⟨hlast | ⟨hnone, -⟩, hselects⟩ := hmem
    · exact ⟨Bool.eq_false_of_not_eq_true hne, hlast, hselects⟩
    · exact absurd hnone List.not_mem_nil

/-- The first signal stays the first, if none of its identity is left out. -/
theorem LeavesOut.firstOf_eq {p : Signal → Prop} {entries less : List Signal}
    (h : LeavesOut p entries less) {ids : Selector}
    (hp : ∀ t, firstOf ids entries = some t → ∀ u ∈ entries, u.identity = t.identity → ¬ p u) :
    firstOf ids less = firstOf ids entries := by
  have hmem : ∀ u ∈ entries.filter (Network.selects ids), u ∈ entries :=
    fun u hu => (List.mem_filter.1 hu).1
  have hselected := h.filter (Network.selects ids)
  unfold firstOf at hp ⊢
  split
  · rfl
  · rename_i hne
    rw [if_neg hne] at hp
    generalize entries.filter (Network.selects ids) = selected at hmem hselected hp ⊢
    generalize less.filter (Network.selects ids) = kept at hselected ⊢
    cases hselected with
    | nil => rfl
    | @keep s selected less hrest =>
      obtain ⟨t, ht, hid, hlast⟩ := exists_head?_foldl_enter s selected
      obtain ⟨u, hu, hid', hlast'⟩ := exists_head?_foldl_enter s less
      have hkept : ¬ p t := hp t ht t (hmem t hlast.mem) rfl
      have hsame : u = t :=
        hlast'.unique ((LeavesOut.keep hrest).lastOf hlast hkept) (hid'.trans hid.symm)
      rw [ht, hu, hsame]
    | @skip s selected _ hs _ =>
      obtain ⟨t, ht, hid, -⟩ := exists_head?_foldl_enter s selected
      exact absurd hs (hp t ht s (hmem s List.mem_cons_self) hid.symm)

end Network

namespace Site

variable {config : Config} {s : Site} {entries : List Signal}

/-- The first signal that is listed for a path if these have been entered. -/
theorem head?_matching (hs : s.hub.Sound config) {path : String}
    (h : Network.SameOrder
      (s.hub.registry.signalsOf (s.hub.selector .signal path).network.text)
      (entries.foldl Network.enter [])) :
    (s.hub.matching path).head? = Network.firstOf (s.hub.selector .signal path) entries := by
  unfold Network.firstOf
  rw [hs.matching_eq]
  split
  · rfl
  · rw [List.head?_filter, h.find?_eq fun _ => Network.name_of_selects, ← List.head?_filter,
      Network.filter_foldl_enter (.selects _), List.filter_nil]

theorem mem_matching_iff (hs : s.hub.Sound config) {path : String}
    (h : Network.SameOrder
      (s.hub.registry.signalsOf (s.hub.selector .signal path).network.text)
      (entries.foldl Network.enter [])) (t : Signal) :
    t ∈ s.hub.matching path ↔ (s.hub.selector .signal path).signal.isEmpty = false ∧
      LastOf entries t ∧ Network.selects (s.hub.selector .signal path) t = true := by
  rw [hs.matching_eq]
  cases (s.hub.selector .signal path).signal.isEmpty with
  | true => simp
  | false =>
    rw [if_neg Bool.false_ne_true, List.mem_filter, h.mem_iff, Network.mem_foldl_enter_iff]
    simp

end Site
end SignalRegistry
