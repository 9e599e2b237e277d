/-
# The life of a handle

An item of an index is inserted under a handle, and the handle leads to it until the
item is removed, alone or with all that have a property (`Index.get?_act`). Its
cell may then take another item, but under a handle with another generation. The
generation of a cell does not come round before 2^32 items were removed, so until then
no handle is given out twice, and one whose item is gone leads nowhere from then on,
whatever is inserted (`Index.handles_run`). The number of a cell has no bound here.

Key definitions: `Index.Action.Removes`, `Index.Stands`, `Index.LeadsTo`,
`Index.Remembers`.
Key theorems: `Index.get?_act`, `Index.issued_act`, `Index.Remembers.run`,
`Index.Stands.of_append`, `Index.handles_run`.
-/
import Mathlib.Data.List.Induction
import SignalRegistry.Proofs.IndexRuns

namespace SignalRegistry
namespace Index

variable {α : Type} {buckets : Nat}

/-! ### What the calls of a run tell -/

section Calls

variable [HasKey α]

/-- The operation inserts an item or removes some, and leaves the others as they are. -/
def Action.AddsOrRemoves : Action α → Prop
  | .insert _ | .erase _ | .eraseWhere _ => True
  | .modify .. | .clear => False

/-- The operation removes the item of the handle. -/
def Action.Removes (h : Handle) (x : α) : Action α → Prop
  | .erase k => k = h
  | .eraseWhere p => p x = true
  | .clear => True
  | .insert _ | .modify .. => False

/-- The handles that were given out, in order. -/
def handedOut (calls : List (Action α × Answer α)) : List Handle :=
  calls.filterMap fun
    | (.insert _, .handle h) => some h
    | _ => none

/-- The items that were removed, in order. -/
def takenOut (calls : List (Action α × Answer α)) : List α :=
  calls.flatMap fun
    | (.erase _, .item x?) => x?.toList
    | (.eraseWhere _, .items xs) => xs
    | _ => []

/-- The item was inserted under the handle, and not removed since. -/
def Stands (calls : List (Action α × Answer α)) (h : Handle) (x : α) : Prop :=
  ∃ before after, calls = before ++ (.insert x, .handle h) :: after ∧
    ∀ call ∈ after, ¬ call.1.Removes h x

variable {calls more : List (Action α × Answer α)} {call : Action α × Answer α} {h : Handle} {x : α}

theorem handedOut_append : handedOut (calls ++ more) = handedOut calls ++ handedOut more :=
  List.filterMap_append

theorem not_stands_nil : ¬ Stands [] h x := by
  rintro ⟨before, after, hcalls, -⟩
  cases before <;> cases hcalls

/-- An item stands that has just been inserted, or stood and is not removed now. -/
theorem stands_concat : Stands (calls ++ [call]) h x ↔
    call = (.insert x, .handle h) ∨ Stands calls h x ∧ ¬ call.1.Removes h x := by
  constructor
  · rintro ⟨before, after, hcalls, hafter⟩
    rcases List.eq_nil_or_concat after with rfl | ⟨after, last, rfl⟩
    · obtain ⟨-, hlast⟩ := List.append_inj' hcalls rfl
      exact Or.inl (List.singleton_inj.1 hlast)
    · rw [List.concat_eq_append, ← List.cons_append, ← List.append_assoc] at hcalls
      obtain ⟨rfl, hlast⟩ := List.append_inj' hcalls rfl
      obtain rfl := List.singleton_inj.1 hlast
      refine Or.inr ⟨⟨before, after, rfl, fun c hc => hafter c ?_⟩, hafter call ?_⟩
      · simp [hc]
      · simp
  · rintro (rfl | ⟨⟨before, after, rfl, hafter⟩, hcall⟩)
    · exact ⟨calls, [], rfl, fun c hc => absurd hc List.not_mem_nil⟩
    · refine ⟨before, after ++ [call], by simp, fun c hc => ?_⟩
      rcases List.mem_append.1 hc with hc | hc
      · exact hafter c hc
      · rwa [List.mem_singleton.1 hc]

/-- Under a handle that is not given out any more, only an item stands that stood there
before. -/
theorem Stands.of_append (hs : Stands (calls ++ more) h x) (hmore : h ∉ handedOut more) :
    Stands calls h x := by
  induction more using List.reverseRecOn with
  | nil => rwa [List.append_nil] at hs
  | append_singleton more call ih =>
    rw [handedOut_append, List.mem_append, not_or] at hmore
    rw [← List.append_assoc, stands_concat] at hs
    rcases hs with rfl | ⟨hs, -⟩
    · exact absurd (List.mem_singleton_self h) hmore.2
    · exact ih hs hmore.1

end Calls

/-! ### Handles given out by an index -/

variable {t : Index α buckets} {handles : List Handle} {removed : Nat}

theorem issued_linkAfter (h : t.arena.Issued handles removed) (b : Fin buckets)
    (last next : Option Handle) : (t.linkAfter b last next).arena.Issued handles removed := by
  unfold linkAfter
  split
  · exact h.modify _ _
  · exact h

variable [HasKey α] [Spreads buckets]

theorem issued_insert (h : t.arena.Issued handles removed) (ha : t.arena.WellFormed) (x : α) :
    (t.insert x).1.arena.Issued (handles ++ [(t.insert x).2]) removed :=
  issued_linkAfter (t := { t with arena := (t.arena.insert ⟨x, none⟩).1, size := t.size + 1 })
    (h.insert ha _) _ _ _

theorem issued_erase (h : t.arena.Issued handles removed) (k : Handle)
    (hlt : removed + (t.erase k).2.toList.length < UInt32.size) :
    (t.erase k).1.arena.Issued handles (removed + (t.erase k).2.toList.length) := by
  unfold erase at hlt ⊢
  cases hg : t.arena.get? k with
  | none => exact h
  | some link =>
    rw [hg] at hlt
    -- The links are changed first, and the handle still leads to its item.
    refine (issued_linkAfter h _ _ _).erase ?_ hlt
    rw [arena_linkAfter, hg]
    split <;> rfl

theorem issued_eraseEach (h : t.arena.Issued handles removed) (hs : List Handle)
    (hlt : removed + (t.eraseEach hs).2.length < UInt32.size) :
    (t.eraseEach hs).1.arena.Issued handles (removed + (t.eraseEach hs).2.length) := by
  induction hs generalizing t removed with
  | nil => exact h
  | cons k hs ih =>
    have hcount : (t.eraseEach (k :: hs)).2.length =
        (t.erase k).2.toList.length + ((t.erase k).1.eraseEach hs).2.length := List.length_append
    rw [hcount, ← Nat.add_assoc] at hlt ⊢
    exact ih (issued_erase h k (by omega)) hlt

/-! ### What one operation does -/

variable {a : Action α}

theorem WellFormed.act (h : t.WellFormed) (ha : a.AddsOrRemoves) : (t.act a).1.WellFormed := by
  cases a with
  | insert x => exact h.insert x
  | erase k => exact h.erase k
  | eraseWhere p => exact h.eraseWhere p
  | modify => exact ha.elim
  | clear => exact ha.elim

/-- A handle leads to an item that is inserted under it, and to one to which it led before
and which is not removed. -/
theorem get?_act (h : t.WellFormed) (ha : a.AddsOrRemoves) (k : Handle) (y : α) :
    (t.act a).1.get? k = some y ↔
      (a, (t.act a).2) = (.insert y, .handle k) ∨ t.get? k = some y ∧ ¬ a.Removes k y := by
  cases a with
  | insert x =>
    show (t.insert x).1.get? k = some y ↔ (_, Answer.handle (t.insert x).2) = _ ∨ _
    rw [get?_insert h]
    by_cases hk : (t.insert x).2 = k
    · have hnone : t.get? k = none := by rw [← hk, get?_insert_snd h]
      simp [hk, hnone]
    · simp [hk, Action.Removes]
  | erase k' =>
    show (t.erase k').1.get? k = some y ↔ _
    rw [get?_erase]
    by_cases hk : k' = k
    · simp [hk, Action.Removes]
    · simp [hk, Action.Removes]
  | eraseWhere p =>
    show (t.eraseWhere p).1.get? k = some y ↔ _
    rw [get?_eraseWhere h, Option.filter_eq_some_iff]
    simp [Action.Removes]
  | modify => exact ha.elim
  | clear => exact ha.elim

/-- An insertion gives out one handle that is new, and each item removed moves the
generation of its cell on. -/
theorem issued_act (h : t.arena.Issued handles removed) (hw : t.arena.WellFormed)
    (ha : a.AddsOrRemoves)
    (hlt : removed + (takenOut [(a, (t.act a).2)]).length < UInt32.size) :
    (t.act a).1.arena.Issued (handles ++ handedOut [(a, (t.act a).2)])
      (removed + (takenOut [(a, (t.act a).2)]).length) := by
  cases a with
  | insert x => exact issued_insert h hw x
  | erase k =>
    have htaken : takenOut [(.erase k, .item (t.erase k).2)] = (t.erase k).2.toList :=
      List.append_nil _
    show (t.erase k).1.arena.Issued (handles ++ [])
      (removed + (takenOut [(.erase k, .item (t.erase k).2)]).length)
    rw [List.append_nil, htaken]
    refine issued_erase h k ?_
    rwa [← htaken]
  | eraseWhere p =>
    have htaken : takenOut [(.eraseWhere p, .items (t.eraseWhere p).2)] = (t.eraseWhere p).2 :=
      List.append_nil _
    show (t.eraseWhere p).1.arena.Issued (handles ++ [])
      (removed + (takenOut [(.eraseWhere p, .items (t.eraseWhere p).2)]).length)
    rw [List.append_nil, htaken]
    refine issued_eraseEach h _ ?_
    show removed + (t.eraseWhere p).2.length < UInt32.size
    rwa [← htaken]
  | modify => exact ha.elim
  | clear => exact ha.elim

/-! ### What a run keeps -/

/-- The handles of the index lead to what the calls have left standing, and none was given
out twice. -/
structure Remembers (t : Index α buckets) (calls : List (Action α × Answer α)) : Prop where
  wellFormed : t.WellFormed
  get?_iff : ∀ h x, t.get? h = some x ↔ Stands calls h x
  issued : (takenOut calls).length < UInt32.size →
    t.arena.Issued (handedOut calls) (takenOut calls).length

namespace Remembers

variable {calls : List (Action α × Answer α)}

theorem empty : (Index.empty : Index α buckets).Remembers [] where
  wellFormed := .empty
  get?_iff h x := by
    rw [get?_empty]
    exact iff_of_false nofun not_stands_nil
  issued _ := .empty

theorem act (h : t.Remembers calls) (ha : a.AddsOrRemoves) :
    (t.act a).1.Remembers (calls ++ [(a, (t.act a).2)]) where
  wellFormed := h.wellFormed.act ha
  get?_iff k y := by rw [get?_act h.wellFormed ha, stands_concat, h.get?_iff]
  issued hlt := by
    have htaken : (takenOut (calls ++ [(a, (t.act a).2)])).length =
        (takenOut calls).length + (takenOut [(a, (t.act a).2)]).length := by
      rw [takenOut, List.flatMap_append, List.length_append]
      rfl
    rw [htaken] at hlt ⊢
    rw [handedOut_append]
    exact issued_act (h.issued (by omega)) h.wellFormed.arena ha hlt

theorem run {actions : List (Action α)} (hkinds : ∀ a ∈ actions, a.AddsOrRemoves) :
    ((Index.empty : Index α buckets).run actions).1.Remembers
      (callsOf Index.act (Index.empty : Index α buckets) actions) := by
  induction actions using List.reverseRecOn with
  | nil => exact empty
  | append_singleton actions a ih =>
    unfold Index.run at ih ⊢
    rw [runEach_concat_fst, callsOf_concat]
    have hfirst := ih fun b hb => hkinds b (List.mem_append_left _ hb)
    exact hfirst.act (hkinds a (List.mem_append_right _ (List.mem_singleton_self a)))

/-- A handle under which no item stands leads nowhere. -/
theorem get?_eq_none_iff (h : t.Remembers calls) (k : Handle) :
    t.get? k = none ↔ ∀ x, ¬ Stands calls k x := by
  rw [Option.eq_none_iff_forall_ne_some]
  exact forall_congr' fun x => not_congr (h.get?_iff k x)

end Remembers

/-! ### What a handle leads to -/

/-- Each use of the handle finds this item, or none: a look, a change of the item or its
removal. If there is none, nothing is changed. -/
structure LeadsTo (t : Index α buckets) (h : Handle) (x? : Option α) : Prop where
  get? : t.get? h = x?
  contains : t.contains h = x?.isSome
  modify : ∀ f, (t.modify h f).get? h = x?.map f
  erase : (t.erase h).2 = x?
  unchanged : x? = none → (t.erase h).1 = t ∧ ∀ f, t.modify h f = t

theorem leadsTo_get? (t : Index α buckets) (h : Handle) : t.LeadsTo h (t.get? h) where
  get? := rfl
  contains := rfl
  modify f := by rw [get?_modify, if_pos rfl]
  erase := erase_snd t h
  unchanged hnone := by
    have hget : t.arena.get? h = none := Option.map_eq_none_iff.1 hnone
    refine ⟨by unfold erase; rw [hget], fun f => ?_⟩
    unfold modify Arena.modify
    rw [hget]
    rfl

/-- **A handle leads to one item.** In a run of insertions and removals, a handle leads to
the item that was inserted under it from then on until it is removed, and nowhere before
or after. While fewer than 2^32 items are removed, no handle is given out twice; one
whose item is gone leads nowhere after any more of the run. -/
theorem handles_run (actions later : List (Action α))
    (hkinds : ∀ a ∈ actions ++ later, a.AddsOrRemoves)
    (hfew : (takenOut (callsOf act (empty : Index α buckets) (actions ++ later))).length <
      UInt32.size) :
    let t := ((empty : Index α buckets).run actions).1
    let calls := callsOf act (empty : Index α buckets) actions
    (handedOut (callsOf act (empty : Index α buckets) (actions ++ later))).Nodup ∧
    (∀ h, (∀ x, Stands calls h x → t.LeadsTo h (some x)) ∧
      ((∀ x, ¬ Stands calls h x) → t.LeadsTo h none)) ∧
    ∀ h ∈ handedOut calls, (∀ x, ¬ Stands calls h x) → (t.run later).1.LeadsTo h none := by
  intro t calls
  have hnow : t.Remembers calls := .run fun a ha => hkinds a (List.mem_append_left _ ha)
  have hthen : ((empty : Index α buckets).run (actions ++ later)).1.Remembers
      (callsOf act (empty : Index α buckets) (actions ++ later)) := .run hkinds
  have hn := (hthen.issued hfew).nodup
  refine ⟨hn, fun h => ⟨fun x hx => ?_, fun hgone => ?_⟩, fun h hh hgone => ?_⟩
  · rw [← (hnow.get?_iff h x).2 hx]
    exact t.leadsTo_get? h
  · rw [← (hnow.get?_eq_none_iff h).2 hgone]
    exact t.leadsTo_get? h
  · -- The handle is not given out again, so nothing can stand under it.
    have hlast : ((empty : Index α buckets).run (actions ++ later)).1 = (t.run later).1 :=
      runEach_append_fst act _ actions later
    rw [hlast, callsOf_append] at hthen
    rw [callsOf_append, handedOut_append, List.nodup_append] at hn
    have hlater : h ∉ handedOut (callsOf act t later) := fun hm => hn.2.2 h hh h hm rfl
    rw [← (hthen.get?_eq_none_iff h).2 fun x hx => hgone x (hx.of_append hlater)]
    exact (t.run later).1.leadsTo_get? h

/-- A signal comes into the cell that all signals have left: the handle of the one that was
there leads nowhere. -/
theorem handles_run_reuse :
    let actions : List (Action Signal) := [.insert (flag "a"), .eraseWhere fun _ => true]
    let later : List (Action Signal) := [.insert (flag "b")]
    let calls := callsOf act (empty : Index Signal 1) (actions ++ later)
    (∀ a ∈ actions ++ later, a.AddsOrRemoves) ∧ (takenOut calls).length < UInt32.size ∧
      handedOut calls = [⟨0, 0⟩, ⟨0, 1⟩] ∧
      ((empty : Index Signal 1).run (actions ++ later)).1.LeadsTo ⟨0, 1⟩ (some (flag "b")) ∧
      (((empty : Index Signal 1).run actions).1.run later).1.LeadsTo ⟨0, 0⟩ none := by
  intro actions later calls
  have hkinds : ∀ a ∈ actions ++ later, a.AddsOrRemoves := by
    simp [actions, later, Action.AddsOrRemoves]
  have htaken : takenOut calls = [flag "a"] := rfl
  have hhanded : handedOut calls = [⟨0, 0⟩, ⟨0, 1⟩] := rfl
  have hfew : (takenOut calls).length < UInt32.size := by
    rw [htaken]
    decide
  have hgone : ∀ x, ¬ Stands (callsOf act (empty : Index Signal 1) actions) ⟨0, 0⟩ x := by
    intro x hx
    have hcalls : callsOf act (empty : Index Signal 1) actions =
      [(.insert (flag "a"), .handle ⟨0, 0⟩)] ++ [(.eraseWhere fun _ => true, .items [flag "a"])] := rfl
    rw [hcalls, stands_concat] at hx
    rcases hx with hx | ⟨-, hx⟩
    · cases hx
    · exact hx rfl
  have hstands : Stands calls ⟨0, 1⟩ (flag "b") :=
    ⟨callsOf act (empty : Index Signal 1) actions, [], rfl, by simp⟩
  have hb := (handles_run (actions ++ later) [] (by simpa using hkinds) hfew).2.1 ⟨0, 1⟩
  have ha := (handles_run actions later hkinds hfew).2.2 ⟨0, 0⟩ List.mem_cons_self hgone
  exact ⟨hkinds, hfew, hhanded, hb.1 _ hstands, ha⟩

end Index
end SignalRegistry
