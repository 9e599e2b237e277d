/-
# Signals entered one after the other

A table of signals has one signal of each name, block, device and number, its
identity. Read as a list in the order of its entries, a signal that is entered
takes the place of the one with its identity, or else comes last
(`Network.enter`). Of signals that are entered one after the other, the last of
each identity is in the list in the end (`Network.mem_foldl_enter_iff`).

A table that keeps the signals of each name together need not list them in the
order of their entries. It does as well if the signals of every one name are in
that order (`Network.SameOrder`): a selector names one signal.

Key definitions: `Signal.identity`, `Network.LastOf`, `Network.enter`,
`Network.OfIdentity`, `Network.SameOrder`.
Key theorems: `Network.mem_foldl_enter_iff`, `Network.filter_foldl_enter`,
`Network.SameOrder.foldl_enter`, `Network.SameOrder.find?_eq`.
-/
import Mathlib.Data.List.Induction
import SignalRegistry.Network

namespace SignalRegistry

/-- What tells a signal from the others of its network. -/
def Signal.identity (s : Signal) : SignalName × BlockName × BlockName × UInt32 :=
  (s.name, s.block, s.device, s.number)

/-- A signal is named like another and lies in the same block exactly if the
two have the same identity. -/
theorem Signal.identity_eq_iff (s t : Signal) : t.identity = s.identity ↔
    t.name.text = s.name.text ∧ t.liesIn s.block.text s.device.text s.number = true := by
  simp only [identity, liesIn, Prod.mk.injEq, Name.ext_iff, Bool.and_eq_true, beq_iff_eq]
  tauto

/-- A signal with the layout of another one of its identity is that one. -/
theorem Signal.refresh_eq {s t : Signal} (hid : t.identity = s.identity) : { t with
    address := s.address, count := s.count, columns := s.columns, type := s.type } = s := by
  simp only [identity, Prod.mk.injEq] at hid
  obtain ⟨hname, hblock, hdevice, hnumber⟩ := hid
  cases s
  simp only at hname hblock hdevice hnumber
  rw [hname, hblock, hdevice, hnumber]

namespace Network

/-! ### The last of each identity -/

/-- The signal is the last of its identity in the list. -/
def LastOf (signals : List Signal) (t : Signal) : Prop :=
  ∃ before more, signals = before ++ t :: more ∧ ∀ s ∈ more, s.identity ≠ t.identity

theorem LastOf.mem {signals : List Signal} {t : Signal} (h : LastOf signals t) : t ∈ signals := by
  obtain ⟨before, more, rfl, -⟩ := h
  exact List.mem_append_right _ List.mem_cons_self

theorem not_lastOf_nil (t : Signal) : ¬ LastOf [] t := fun h => absurd h.mem List.not_mem_nil

theorem lastOf_cons (s t : Signal) (signals : List Signal) : LastOf (s :: signals) t ↔
    LastOf signals t ∨ t = s ∧ ∀ u ∈ signals, u.identity ≠ t.identity := by
  constructor
  · rintro ⟨before, more, he, hmore⟩
    rcases List.cons_eq_append_iff.1 he with ⟨rfl, he⟩ | ⟨before', rfl, he⟩
    · obtain ⟨rfl, rfl⟩ := List.cons.inj he
      exact Or.inr ⟨rfl, hmore⟩
    · exact Or.inl ⟨before', more, (List.cons.inj he).2, hmore⟩
  · rintro (⟨before, more, rfl, hmore⟩ | ⟨rfl, hmore⟩)
    · exact ⟨s :: before, more, rfl, hmore⟩
    · exact ⟨[], signals, rfl, hmore⟩

theorem LastOf.append {signals : List Signal} {s t : Signal} (h : LastOf signals t)
    (hne : s.identity ≠ t.identity) : LastOf (signals ++ [s]) t := by
  obtain ⟨before, more, rfl, hmore⟩ := h
  refine ⟨before, more ++ [s], by simp, fun u hu => ?_⟩
  rcases List.mem_append.1 hu with hu | hu
  · exact hmore u hu
  · rw [List.mem_singleton.1 hu]
    exact hne

/-- A further signal is the last of its identity, and the last one of every other is
as before. -/
theorem lastOf_concat (signals : List Signal) (s t : Signal) :
    LastOf (signals ++ [s]) t ↔ t = s ∨ LastOf signals t ∧ s.identity ≠ t.identity := by
  constructor
  · rintro ⟨before, more, he, hmore⟩
    rcases more.eq_nil_or_concat with rfl | ⟨more, u, rfl⟩
    · obtain ⟨-, hlast⟩ := List.append_inj' he rfl
      exact Or.inl (List.cons.inj hlast).1.symm
    · rw [List.concat_eq_append] at he hmore
      rw [← List.cons_append, ← List.append_assoc] at he
      obtain ⟨rfl, hlast⟩ := List.append_inj' he rfl
      obtain rfl := (List.cons.inj hlast).1
      refine Or.inr ⟨⟨before, more, rfl, fun v hv => hmore v (List.mem_append_left _ hv)⟩, ?_⟩
      exact hmore s (List.mem_append_right _ (List.mem_singleton_self s))
  · rintro (rfl | ⟨hlast, hne⟩)
    · exact ⟨signals, [], rfl, fun u hu => absurd hu List.not_mem_nil⟩
    · exact hlast.append hne

/-- Of an identity there is one last signal at most. -/
theorem LastOf.unique {signals : List Signal} {t u : Signal} (ht : LastOf signals t)
    (hu : LastOf signals u) (hid : t.identity = u.identity) : t = u := by
  induction signals with
  | nil => exact absurd ht (not_lastOf_nil t)
  | cons s signals ih =>
    rw [lastOf_cons] at ht hu
    rcases ht with ht | ⟨rfl, hnone⟩
    · rcases hu with hu | ⟨rfl, hnone⟩
      · exact ih ht hu
      · exact absurd hid (hnone t ht.mem)
    · rcases hu with hu | ⟨rfl, -⟩
      · exact absurd hid.symm (hnone u hu.mem)
      · rfl

/-- Of an identity that is in a list there is a last signal. -/
theorem exists_lastOf {signals : List Signal} {u : Signal} (hu : u ∈ signals) :
    ∃ t, LastOf signals t ∧ t.identity = u.identity := by
  induction signals using List.reverseRecOn with
  | nil => exact absurd hu List.not_mem_nil
  | append_singleton signals s ih =>
    by_cases hs : s.identity = u.identity
    · exact ⟨s, ⟨signals, [], rfl, fun v hv => absurd hv List.not_mem_nil⟩, hs⟩
    · have hmem : u ∈ signals := by
        rcases List.mem_append.1 hu with hu | hu
        · exact hu
        · exact absurd (by rw [List.mem_singleton.1 hu]) hs
      obtain ⟨t, hlast, hid⟩ := ih hmem
      exact ⟨t, hlast.append (hid ▸ hs), hid⟩

/-! ### Entering -/

/-- A signal is entered: it takes the place of the one with its identity, or comes
last if there is none. -/
def enter (signals : List Signal) (s : Signal) : List Signal :=
  if ∃ t ∈ signals, t.identity = s.identity then
    signals.map fun t => if t.identity = s.identity then s else t
  else signals ++ [s]

theorem mem_enter_iff (signals : List Signal) (s t : Signal) :
    t ∈ enter signals s ↔ t = s ∨ t ∈ signals ∧ t.identity ≠ s.identity := by
  unfold enter
  by_cases hold : ∃ u ∈ signals, u.identity = s.identity
  · obtain ⟨u, hu, hid⟩ := hold
    rw [if_pos ⟨u, hu, hid⟩, List.mem_map]
    constructor
    · rintro ⟨v, hv, rfl⟩
      by_cases hvs : v.identity = s.identity
      · rw [if_pos hvs]
        exact Or.inl rfl
      · rw [if_neg hvs]
        exact Or.inr ⟨hv, hvs⟩
    · rintro (rfl | ⟨ht, hne⟩)
      · exact ⟨u, hu, if_pos hid⟩
      · exact ⟨t, ht, if_neg hne⟩
  · rw [if_neg hold, List.mem_append, List.mem_singleton, or_comm]
    refine or_congr_right (and_iff_left_of_imp fun ht hid => ?_).symm
    exact hold ⟨t, ht, hid⟩

/-- Of the signals entered, the last of each identity is in the list, and all stay
that have no identity of these. -/
theorem mem_foldl_enter_iff (entries signals : List Signal) (t : Signal) :
    t ∈ entries.foldl enter signals ↔
      LastOf entries t ∨ t ∈ signals ∧ ∀ s ∈ entries, s.identity ≠ t.identity := by
  induction entries generalizing signals with
  | nil =>
    have hall : ∀ s ∈ ([] : List Signal), s.identity ≠ t.identity :=
      fun s hs => absurd hs List.not_mem_nil
    exact (and_iff_left hall).symm.trans (or_iff_right (not_lastOf_nil t)).symm
  | cons s more ih =>
    rw [List.foldl_cons, ih, mem_enter_iff, lastOf_cons, List.forall_mem_cons,
      ne_comm (a := s.identity)]
    tauto

/-- What is entered takes the place of the first signal, or leaves it where it is. -/
theorem head?_enter {signals : List Signal} {t : Signal} (ht : signals.head? = some t) (s : Signal) :
    ∃ u, (enter signals s).head? = some u ∧ u.identity = t.identity := by
  unfold enter
  split
  · rw [List.head?_map, ht, Option.map_some]
    refine ⟨_, rfl, ?_⟩
    split
    · rename_i hid
      exact hid.symm
    · rfl
  · rw [List.head?_append, ht]
    exact ⟨t, rfl, rfl⟩

theorem head?_foldl_enter (entries : List Signal) {signals : List Signal} {t : Signal}
    (ht : signals.head? = some t) :
    ∃ u, (entries.foldl enter signals).head? = some u ∧ u.identity = t.identity := by
  induction entries generalizing signals t with
  | nil => exact ⟨t, ht, rfl⟩
  | cons s more ih =>
    obtain ⟨u, hu, hid⟩ := head?_enter ht s
    obtain ⟨v, hv, hid'⟩ := ih hu
    exact ⟨v, hv, hid'.trans hid⟩

/-- What comes first in the end has the identity of what was entered first. -/
theorem exists_head?_foldl_enter (s : Signal) (more : List Signal) :
    ∃ t, ((s :: more).foldl enter []).head? = some t ∧ t.identity = s.identity ∧
      LastOf (s :: more) t := by
  have hsingle : (enter [] s).head? = some s := rfl
  obtain ⟨t, ht, hid⟩ := head?_foldl_enter more hsingle
  refine ⟨t, ht, hid, ?_⟩
  rcases (mem_foldl_enter_iff (s :: more) [] t).1 (List.mem_of_head? ht) with hlast | ⟨hnone, -⟩
  · exact hlast
  · exact absurd hnone List.not_mem_nil

/-- Signals of one identity have the property or not alike. -/
def OfIdentity (p : Signal → Bool) : Prop := ∀ s t : Signal, s.identity = t.identity → p s = p t

theorem OfIdentity.name (name : SignalName) : OfIdentity fun t => t.name = name := by
  intro s t hid
  have hname : s.name = t.name := congrArg Prod.fst hid
  simp only [hname]

/-- A signal is entered among those that share a property of its identity. -/
theorem filter_enter {p : Signal → Bool} (hp : OfIdentity p) (signals : List Signal) (s : Signal) :
    (enter signals s).filter p =
      if p s = true then enter (signals.filter p) s else signals.filter p := by
  -- What takes the place of a signal has the property or not as that had.
  have hmap : (signals.map fun t => if t.identity = s.identity then s else t).filter p =
      (signals.filter p).map fun t => if t.identity = s.identity then s else t := by
    rw [List.filter_map]
    congr 1
    refine List.filter_congr fun t _ => ?_
    show p (if t.identity = s.identity then s else t) = p t
    by_cases hid : t.identity = s.identity
    · rw [if_pos hid, hp t s hid]
    · rw [if_neg hid]
  unfold enter
  by_cases hs : p s = true
  · have hexists : (∃ t ∈ signals.filter p, t.identity = s.identity) ↔
        ∃ t ∈ signals, t.identity = s.identity := by
      refine exists_congr fun t => and_congr_left fun hid => ?_
      rw [List.mem_filter, and_iff_left ((hp t s hid).trans hs)]
    rw [if_pos hs]
    simp only [hexists]
    split
    · exact hmap
    · have hone : [s].filter p = [s] := List.filter_cons_of_pos hs
      rw [List.filter_append, hone]
  · rw [if_neg hs]
    split
    · rw [hmap]
      refine (List.map_congr_left fun t ht => ?_).trans (List.map_id _)
      exact if_neg fun hid => hs ((hp t s hid).symm.trans (List.mem_filter.1 ht).2)
    · have hnone : [s].filter p = [] := List.filter_cons_of_neg hs
      rw [List.filter_append, hnone, List.append_nil]

theorem filter_foldl_enter {p : Signal → Bool} (hp : OfIdentity p) (entries signals : List Signal) :
    (entries.foldl enter signals).filter p = (entries.filter p).foldl enter (signals.filter p) := by
  induction entries generalizing signals with
  | nil => rfl
  | cons s more ih =>
    rw [List.foldl_cons, ih, filter_enter hp]
    by_cases hs : p s = true
    · rw [if_pos hs, List.filter_cons_of_pos hs, List.foldl_cons]
    · rw [if_neg hs, List.filter_cons_of_neg hs]

/-! ### The order of the signals of one name -/

/-- The signals of every one name are the same in both lists, and in the same
order. -/
def SameOrder (signals others : List Signal) : Prop :=
  ∀ name : SignalName, signals.filter (·.name = name) = others.filter (·.name = name)

namespace SameOrder

variable {signals others more : List Signal}

theorem refl (signals : List Signal) : SameOrder signals signals := fun _ => rfl

theorem symm (h : SameOrder signals others) : SameOrder others signals := fun name => (h name).symm

theorem trans (h : SameOrder signals others) (h' : SameOrder others more) :
    SameOrder signals more := fun name => (h name).trans (h' name)

theorem mem_iff (h : SameOrder signals others) (t : Signal) : t ∈ signals ↔ t ∈ others := by
  have hmem : ∀ l : List Signal, t ∈ l ↔ t ∈ l.filter (·.name = t.name) := by
    intro l
    rw [List.mem_filter]
    exact (and_iff_left (decide_eq_true rfl)).symm
  rw [hmem signals, h t.name, ← hmem others]

theorem filter (h : SameOrder signals others) (p : Signal → Bool) :
    SameOrder (signals.filter p) (others.filter p) := by
  intro name
  have hcomm : ∀ l : List Signal,
      (l.filter p).filter (·.name = name) = (l.filter (·.name = name)).filter p := by
    intro l
    simp only [List.filter_filter, Bool.and_comm]
  rw [hcomm, h name, ← hcomm]

/-- Both lists have the same first signal of a property that tells the name. -/
theorem find?_eq (h : SameOrder signals others) {name : SignalName} {p : Signal → Bool}
    (hp : ∀ s, p s = true → s.name = name) : signals.find? p = others.find? p := by
  have hnamed : ∀ l : List Signal, l.filter p = (l.filter (·.name = name)).filter p := by
    intro l
    rw [List.filter_filter]
    refine List.filter_congr fun s _ => ?_
    cases hs : p s with
    | false => rfl
    | true => rw [Bool.true_and, decide_eq_true (hp s hs)]
  rw [← List.head?_filter, ← List.head?_filter, hnamed signals, h name, ← hnamed others]

theorem enter (h : SameOrder signals others) (s : Signal) :
    SameOrder (enter signals s) (Network.enter others s) := by
  intro name
  rw [filter_enter (.name name), filter_enter (.name name), h name]

theorem foldl_enter (h : SameOrder signals others) (entries : List Signal) :
    SameOrder (entries.foldl Network.enter signals) (entries.foldl Network.enter others) := by
  induction entries generalizing signals others with
  | nil => exact h
  | cons s more ih => exact ih (h.enter s)

end SameOrder

end Network
end SignalRegistry
