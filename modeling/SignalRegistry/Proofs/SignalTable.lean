/-
# The table of signals as a map

The name, block, device and number of a signal are its identity. The table finds
it by a search in one chain, and still holds what a map from identities would
(`Network.Maps`): no two signals have the same, each signal is the last that was
added with its own, and one that is added again takes the place of the old one,
under its handle and with all others as they are.

An identity is in the table if a signal of it was added and not removed since
(`Network.AddedSince`). A removal by handle, the loss of a block and a clearance
remove signals, and nothing else does (`Network.mem_items_act_iff`).

Key definitions: `Network.added`, `Network.Removes`, `Network.AddedSince`,
`Network.Maps`.
Key theorems: `Network.toList_putSignal`, `Network.mem_items_act_iff`,
`Network.mem_items_run_iff`, `Network.maps_run`.
-/
import Mathlib.Data.Set.Card
import SignalRegistry.Proofs.Listing

namespace SignalRegistry

/-- What tells signals apart: name, block, device and number. -/
abbrev Signal.Identity := SignalName × BlockName × BlockName × UInt32

namespace Network

variable {n : Network} {a : Action} {s : Signal}

/-! ### Adding a signal that is there -/

/-- A signal whose identity is in the table takes the place of the old one, and its
handle. -/
theorem toList_putSignal (hn : n.WellFormed) {h : Handle} {t : Signal}
    (ht : n.signals.get? h = some t) (hid : t.identity = s.identity) :
    (n.putSignal s).2.1 = h ∧
      (n.putSignal s).1.signals.toList = n.signals.toList.map fun e =>
        if e.1 = h then (h, s) else e := by
  cases hk : n.sameSignal? s with
  | none => exact absurd hid (sameSignal?_eq_none hn hk ht)
  | some k =>
    obtain ⟨u, hu, hidu⟩ := sameSignal?_eq_some hn hk
    have hkh : k = h := hn.identity k h u t hu ht (hidu.trans hid.symm)
    subst hkh
    have hlist := Index.toList_modify hn.signals k (fun t => { t with
      address := s.address, count := s.count, columns := s.columns, type := s.type }) fun _ _ => rfl
    unfold putSignal
    rw [hk]
    exact ⟨rfl, hlist.trans (map_refreshed ht hid fun e he => (Index.mem_toList hn.signals _ _).1 he)⟩

/-! ### What an operation does to the table -/

/-- The operation takes the signal of this identity out of the table. -/
def Removes (n : Network) (i : Signal.Identity) : Action → Prop
  | .eraseSignal h => ∃ s, n.signals.get? h = some s ∧ s.identity = i
  | .forget _ block => i.2 = (block.identity.block, block.identity.device, block.identity.number)
  | .clear => True
  | .putSignal _ | .link _ | .unlink _ | .lookup _ _ _ _ => False

/-- A signal lies in a block exactly if its identity has the block, the device and the
number. -/
theorem liesIn_iff (block : BlockRef) (s : Signal) :
    s.liesIn block.identity.block.text block.identity.device.text block.identity.number = true ↔
      s.identity.2 = (block.identity.block, block.identity.device, block.identity.number) := by
  simp only [Signal.liesIn, Signal.identity, Prod.mk.injEq, Name.ext_iff, Bool.and_eq_true,
    beq_iff_eq, and_assoc]

theorem WellFormed.act (hn : n.WellFormed) (a : Action) : (n.act a).1.WellFormed := by
  cases a with
  | putSignal s => exact hn.putSignal s
  | eraseSignal h => exact hn.eraseSignal h
  | link block => exact hn.link block
  | unlink h => exact hn.unlink h
  | lookup alive block device number => exact hn.lookup alive block device number
  | forget alive block => exact hn.forget
  | clear => exact wellFormed_of_empty rfl rfl

/-- A removal by handle takes one signal away. -/
theorem mem_items_eraseSignal_iff (hn : n.WellFormed) (h : Handle) (t : Signal) :
    t ∈ (n.eraseSignal h).1.signals.items ↔
      t ∈ n.signals.items ∧ ¬ n.Removes t.identity (.eraseSignal h) := by
  have hget : ∀ k, (n.eraseSignal h).1.signals.get? k = if h = k then none else n.signals.get? k :=
    Index.get?_erase n.signals h
  rw [Index.mem_items (hn.eraseSignal h).signals, Index.mem_items hn.signals]
  constructor
  · rintro ⟨k, hk⟩
    rw [hget] at hk
    split at hk
    · cases hk
    · rename_i hne
      refine ⟨⟨k, hk⟩, ?_⟩
      rintro ⟨s, hs, hid⟩
      exact hne (hn.identity h k s t hs hk hid)
  · rintro ⟨⟨k, hk⟩, hstays⟩
    refine ⟨k, ?_⟩
    rw [hget, if_neg]
    · exact hk
    · rintro rfl
      exact hstays ⟨t, hk, rfl⟩

/-- After an operation the table has the signal that was added, and of what it had
before what has another identity and was not removed. -/
theorem mem_items_act_iff (hn : n.WellFormed) (a : Action) (t : Signal) :
    t ∈ (n.act a).1.signals.items ↔ a = .putSignal t ∨ t ∈ n.signals.items ∧
      (∀ s, a = .putSignal s → s.identity ≠ t.identity) ∧ ¬ n.Removes t.identity a := by
  -- An operation that adds nothing can only remove.
  have hadds : (∀ s, a ≠ .putSignal s) →
      ((a = .putSignal t ∨ t ∈ n.signals.items ∧
        (∀ s, a = .putSignal s → s.identity ≠ t.identity) ∧ ¬ n.Removes t.identity a) ↔
          t ∈ n.signals.items ∧ ¬ n.Removes t.identity a) := by
    intro hnone
    rw [or_iff_right (hnone t)]
    exact and_congr_right fun _ => and_iff_right fun s hs => absurd hs (hnone s)
  cases a with
  | putSignal s =>
    refine ((sameOrder_putSignal hn s).mem_iff t).trans ((mem_enter_iff _ s t).trans ?_)
    simp only [Action.putSignal.injEq, forall_eq', Removes, not_false_eq_true, and_true]
    rw [eq_comm (a := s), ne_comm (a := s.identity)]
  | eraseSignal h =>
    rw [hadds fun _ => Action.noConfusion]
    exact mem_items_eraseSignal_iff hn h t
  | link block =>
    rw [hadds fun _ => Action.noConfusion, Removes, not_false_eq_true, and_true]
    exact iff_of_eq (congrArg (t ∈ Index.items ·) (n.link_signals block))
  | unlink h =>
    rw [hadds fun _ => Action.noConfusion, Removes, not_false_eq_true, and_true]
    exact Iff.rfl
  | lookup alive block device number =>
    rw [hadds fun _ => Action.noConfusion, Removes, not_false_eq_true, and_true]
    exact Iff.rfl
  | forget alive block =>
    have hitems : (n.act (.forget alive block)).1.signals.items = n.signals.items.filter fun s =>
        !s.liesIn block.identity.block.text block.identity.device.text block.identity.number :=
      items_forget hn.signals
    rw [hadds fun _ => Action.noConfusion, Removes, ← liesIn_iff, hitems, List.mem_filter,
      Bool.not_eq_true', Bool.not_eq_true]
  | clear =>
    rw [hadds fun _ => Action.noConfusion, Removes, not_true_eq_false, and_false]
    refine iff_of_false ?_ not_false
    show t ∉ (Index.empty : SignalIndex).items
    rw [Index.items_empty]
    exact List.not_mem_nil

/-! ### What has been added and not removed since -/

/-- The signals that a run adds, in the order in which it does. -/
def added (actions : List Action) : List Signal :=
  actions.filterMap fun
    | .putSignal s => some s
    | _ => none

/-- A signal of this identity was added, and none of the operations since removed it. -/
def AddedSince (n : Network) (actions : List Action) (i : Signal.Identity) : Prop :=
  ∃ before s after, actions = before ++ .putSignal s :: after ∧ s.identity = i ∧
    ∀ earlier a later, after = earlier ++ a :: later →
      ¬ (n.run (before ++ .putSignal s :: earlier)).1.Removes i a

theorem not_addedSince_nil (i : Signal.Identity) : ¬ n.AddedSince [] i := by
  rintro ⟨before, s, after, he, -⟩
  exact List.append_ne_nil_of_right_ne_nil before (List.cons_ne_nil _ after) he.symm

/-- A further operation adds the identity, or leaves it if it was there. -/
theorem addedSince_concat (actions : List Action) (a : Action) (i : Signal.Identity) :
    n.AddedSince (actions ++ [a]) i ↔ (∃ s, a = .putSignal s ∧ s.identity = i) ∨
      n.AddedSince actions i ∧ ¬ (n.run actions).1.Removes i a := by
  constructor
  · rintro ⟨before, s, after, he, hid, hsince⟩
    rcases after.eq_nil_or_concat with rfl | ⟨after, b, rfl⟩
    · obtain ⟨-, hlast⟩ := List.append_inj' he rfl
      exact Or.inl ⟨s, (List.cons.inj hlast).1, hid⟩
    · rw [List.concat_eq_append] at he hsince
      rw [← List.cons_append, ← List.append_assoc] at he
      obtain ⟨rfl, hlast⟩ := List.append_inj' he rfl
      obtain rfl := (List.cons.inj hlast).1
      refine Or.inr ⟨⟨before, s, after, rfl, hid, ?_⟩, hsince after a [] rfl⟩
      intro earlier c later hc
      exact hsince earlier c (later ++ [a]) (by rw [hc, List.append_assoc, List.cons_append])
  · rintro (⟨s, rfl, hid⟩ | ⟨⟨before, s, after, rfl, hid, hsince⟩, hstays⟩)
    · refine ⟨actions, s, [], rfl, hid, fun earlier c later hc => ?_⟩
      exact absurd hc.symm (List.append_ne_nil_of_right_ne_nil earlier (List.cons_ne_nil c later))
    · refine ⟨before, s, after ++ [a], by rw [List.append_assoc, List.cons_append], hid, ?_⟩
      intro earlier c later hc
      rcases later.eq_nil_or_concat with rfl | ⟨later, d, rfl⟩
      · obtain ⟨rfl, hlast⟩ := List.append_inj' hc rfl
        obtain rfl := (List.cons.inj hlast).1
        exact hstays
      · rw [List.concat_eq_append, ← List.cons_append, ← List.append_assoc] at hc
        exact hsince earlier c later (List.append_inj' hc rfl).1

theorem WellFormed.run (hn : n.WellFormed) (actions : List Action) : (n.run actions).1.WellFormed := by
  induction actions generalizing n with
  | nil => exact hn
  | cons a actions ih => exact ih (hn.act a)

theorem added_concat (actions : List Action) (a : Action) :
    added (actions ++ [a]) = added actions ++ added [a] := List.filterMap_append

/-- What a table that was empty at first has in the end: the last signal of each
identity that was added and not removed since. By induction on the run, from its end. -/
theorem mem_items_run_iff (hn : n.WellFormed) (hempty : n.signals.items = [])
    (actions : List Action) (t : Signal) : t ∈ (n.run actions).1.signals.items ↔
      LastOf (added actions) t ∧ n.AddedSince actions t.identity := by
  induction actions using List.reverseRecOn with
  | nil =>
    refine iff_of_false ?_ fun h => not_addedSince_nil _ h.2
    show t ∉ n.signals.items
    rw [hempty]
    exact List.not_mem_nil
  | append_singleton actions a ih =>
    have hrun : (n.run (actions ++ [a])).1 = ((n.run actions).1.act a).1 :=
      runEach_concat_fst act n actions a
    rw [hrun, mem_items_act_iff (hn.run actions), ih, addedSince_concat, added_concat]
    by_cases hput : ∃ s, a = .putSignal s
    · obtain ⟨s, rfl⟩ := hput
      have hadded : added [.putSignal s] = [s] := rfl
      simp only [hadded, lastOf_concat, Action.putSignal.injEq, forall_eq', exists_eq_left', Removes,
        not_false_eq_true, and_true, eq_comm (a := s) (b := t)]
      constructor
      · rintro (rfl | ⟨⟨hlast, hsince⟩, hne⟩)
        · exact ⟨Or.inl rfl, Or.inl rfl⟩
        · exact ⟨Or.inr ⟨hlast, hne⟩, Or.inr hsince⟩
      · rintro ⟨rfl | ⟨hlast, hne⟩, hid | hsince⟩
        · exact Or.inl rfl
        · exact Or.inl rfl
        · exact absurd hid hne
        · exact Or.inr ⟨⟨hlast, hsince⟩, hne⟩
    · have hnone : ∀ s, a ≠ .putSignal s := fun s hs => hput ⟨s, hs⟩
      have hadded : added [a] = [] := by
        cases a with
        | putSignal s => exact absurd rfl (hnone s)
        | _ => rfl
      have hno : ¬ ∃ s, a = .putSignal s ∧ s.identity = t.identity :=
        fun ⟨s, hs, _⟩ => hnone s hs
      rw [hadded, List.append_nil, or_iff_right (hnone t), or_iff_right hno, and_assoc]
      refine and_congr_right fun _ => and_congr_right fun _ => ?_
      exact and_iff_right fun s hs => absurd hs (hnone s)

/-! ### The map -/

/-- The table is a map from identities to signals: what was added last of each
identity that is present. -/
structure Maps (n : Network) (history : List Signal) (present : Set Signal.Identity) : Prop where
  /-- No two signals have the same identity. -/
  separate : ∀ h k s t, n.signals.get? h = some s → n.signals.get? k = some t →
    s.identity = t.identity → h = k
  /-- A signal is in the table if its identity is present and it was the last of it. -/
  get?_iff : ∀ s, (∃ h, n.signals.get? h = some s) ↔ LastOf history s ∧ s.identity ∈ present
  /-- Every identity that is present has a signal. -/
  covers : ∀ i ∈ present, ∃ h s, n.signals.get? h = some s ∧ s.identity = i
  /-- A signal that is added again has the handle and the place of the old one, and
  all others stay as they are. -/
  again : ∀ h s t, n.signals.get? h = some t → t.identity = s.identity →
    (n.putSignal s).2.1 = h ∧ (n.putSignal s).1.signals.toList =
      n.signals.toList.map fun e => if e.1 = h then (h, s) else e
  size : (n.signals.size : ℕ∞) = present.encard

/-- The identities in a table that was empty at first are those added and not removed
since. -/
theorem mem_identities_run_iff (hn : n.WellFormed) (hempty : n.signals.items = [])
    (actions : List Action) (i : Signal.Identity) :
    i ∈ (n.run actions).1.signals.items.map Signal.identity ↔ n.AddedSince actions i := by
  rw [List.mem_map]
  constructor
  · rintro ⟨s, hs, rfl⟩
    exact ((mem_items_run_iff hn hempty actions s).1 hs).2
  · intro hsince
    have hput := hsince
    obtain ⟨before, s, after, he, hid, -⟩ := hput
    have hadded : s ∈ added actions :=
      List.mem_filterMap.2 ⟨.putSignal s, he ▸ List.mem_append_right _ List.mem_cons_self, rfl⟩
    obtain ⟨t, hlast, htid⟩ := exists_lastOf hadded
    refine ⟨t, (mem_items_run_iff hn hempty actions t).2 ⟨hlast, ?_⟩, htid.trans hid⟩
    rw [htid, hid]
    exact hsince

/-- **The table of a network is a map.** After every run of operations on a new
network, its table is the map from the identities added and not removed since to
the signals that were added last. -/
theorem maps_run {name : String} {n : Network} (hname : ofName name = .ok n)
    (actions : List Action) :
    (n.run actions).1.Maps (added actions) { i | n.AddedSince actions i } := by
  have hn := wellFormed_ofName hname
  have hempty : n.signals.items = [] :=
    (congrArg (fun n : Network => n.signals.items) (ofName_eq_ok hname).1).trans Index.items_empty
  have hrun := hn.run actions
  have hpresent := mem_identities_run_iff hn hempty actions
  refine ⟨hrun.identity, fun s => ?_, fun i hi => ?_, fun h s t => toList_putSignal hrun, ?_⟩
  · rw [← Index.mem_items hrun.signals, mem_items_run_iff hn hempty]
    exact Iff.rfl
  · obtain ⟨s, hs, hid⟩ := List.mem_map.1 ((hpresent i).2 hi)
    obtain ⟨h, hget⟩ := (Index.mem_items hrun.signals s).1 hs
    exact ⟨h, s, hget, hid⟩
  · have hnodup := hrun.identity.nodup_map hrun.signals
    have hset : { i | n.AddedSince actions i } =
        ((n.run actions).1.signals.items.map Signal.identity).toFinset := by
      ext i
      rw [List.coe_toFinset, Set.mem_ofPred_eq, Set.mem_ofPred_eq, hpresent]
    rw [hset, Set.encard_coe_eq_coe_finsetCard, List.toFinset_card_of_nodup hnodup, List.length_map,
      Index.size_eq hrun.signals]

/-- Of the lamps that came there are three in the end: the first was changed, and the
second was added anew. -/
theorem maps_run_lamps : ofName "n" = .ok { name := .cut 24 "n" } ∧
    (({ name := .cut 24 "n" } : Network).run lamps).1.signals.size = 3 ∧
    { i | ({ name := .cut 24 "n" } : Network).AddedSince lamps i }.encard = 3 ∧
    LastOf (added lamps) (lamp "imp" 1 4) := by
  have hname : ofName "n" = .ok { name := .cut 24 "n" } := rfl
  have hget : (({ name := .cut 24 "n" } : Network).run lamps).1.signals.get? ⟨0, 0⟩ =
      some (lamp "imp" 1 4) := rfl
  have hsize : (({ name := .cut 24 "n" } : Network).run lamps).1.signals.size = 3 := rfl
  have hmaps := maps_run hname lamps
  refine ⟨hname, hsize, ?_, ((hmaps.get?_iff _).1 ⟨_, hget⟩).1⟩
  rw [← hmaps.size, hsize]
  rfl

end Network
end SignalRegistry
