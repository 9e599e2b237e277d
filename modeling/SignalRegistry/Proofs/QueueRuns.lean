/-
# The order of events in a queue

Events are appended to a queue, shown, taken and dropped. An event is in the queue
from its append, if the mask wants it and the queue has room, until it is taken or
all events are dropped. So what was taken since the last clear, and then what is
pending, are the events that were accepted since then (`Event.Queue.AccountsFor.act`):
none is lost, doubled or overtaken, in whatever order the calls come
(`Event.Queue.fifo_run`).

Key definitions: `Event.Queue.Action`, `Event.Queue.run`, `Event.Queue.sinceClear`,
`Event.Queue.accepted`, `Event.Queue.taken`, `Event.Queue.AccountsFor`.
Key theorems: `Event.Queue.push_snd_result`, `Event.Queue.AccountsFor.act`,
`Event.Queue.AccountsFor.run`, `Event.Queue.fifo_run`.
-/
import Mathlib.Data.List.DropRight
import Mathlib.Data.List.Induction
import SignalRegistry.Proofs.Delivery

namespace SignalRegistry
namespace Event.Queue

/-! ### Runs -/

/-- A call of a queue. -/
inductive Action where
  | push (e : Event)
  | peek
  | pop
  | clear

inductive Answer where
  | pushed (result : Except Error Unit)
  | event (e? : Option Event)
  | done

def act (q : Event.Queue) : Action → Event.Queue × Answer
  | .push e => ((q.push e).1, .pushed (q.push e).2.result)
  | .peek => (q, .event q.peek)
  | .pop => (q.pop.1, .event q.pop.2.1)
  | .clear => (q.clear, .done)

def run (q : Event.Queue) (actions : List Action) : Event.Queue × List Answer :=
  runEach act q actions

/-- The calls after the last clear, all of them if there was none. -/
def sinceClear (calls : List (Action × Answer)) : List (Action × Answer) :=
  calls.rtakeWhile fun
    | (.clear, _) => false
    | _ => true

/-- The events that were wanted and not refused, in the order of their appends. -/
def accepted (mask : Event.Mask) (calls : List (Action × Answer)) : List Event :=
  calls.filterMap fun
    | (.push e, .pushed (.ok ())) => if mask.wants e.kind then some e else none
    | _ => none

/-- The events that were taken, in that order. -/
def taken (calls : List (Action × Answer)) : List Event :=
  calls.filterMap fun
    | (.pop, .event e?) => e?
    | _ => none

/-! ### What one call does -/

variable {q : Event.Queue}

/-- A full queue refuses an event that is wanted; there is no other failure. -/
theorem push_snd_result (h : q.pending.length ≤ q.depth) (e : Event) :
    (q.push e).2.result =
      if q.mask.wants e.kind = true ∧ q.pending.length = q.depth then
        .error (.exhausted .queueFull)
      else .ok () := by
  unfold push
  by_cases hwants : q.mask.wants e.kind = true
  · by_cases hfull : q.pending.length = q.depth
    · rw [if_pos hwants, if_pos (Nat.le_of_eq hfull.symm), if_pos ⟨hwants, hfull⟩]
    · rw [if_pos hwants, if_neg (by omega), if_neg fun h => hfull h.2]
  · rw [if_neg hwants, if_neg fun h => hwants h.1]

/-- An event that is not wanted, or has no room, leaves the queue as it is. -/
theorem push_fst_of_not_accepted {e : Event}
    (h : ¬ (q.mask.wants e.kind = true ∧ q.pending.length < q.depth)) : (q.push e).1 = q := by
  unfold push
  by_cases hwants : q.mask.wants e.kind = true
  · rw [if_pos hwants, if_pos (Nat.le_of_not_lt fun hroom => h ⟨hwants, hroom⟩)]
  · rw [if_neg hwants]

theorem depth_mask_act (q : Event.Queue) (a : Action) :
    (q.act a).1.depth = q.depth ∧ (q.act a).1.mask = q.mask := by
  cases a with
  | push e => exact (q.push_spec e).2
  | peek => exact ⟨rfl, rfl⟩
  | pop => exact (q.use_spec .pop).2
  | clear => exact ⟨rfl, rfl⟩

theorem length_act_le (h : q.pending.length ≤ q.depth) (a : Action) :
    (q.act a).1.pending.length ≤ (q.act a).1.depth := by
  cases a with
  | push e => exact length_push_le h e
  | peek => exact h
  | pop => exact length_use_le h .pop
  | clear => exact Nat.zero_le _

/-- What a call takes is at the front of what was pending, and what it appends comes
after it. -/
theorem taken_act (h : q.pending.length ≤ q.depth) {a : Action} (ha : a ≠ .clear) :
    taken [(a, (q.act a).2)] ++ (q.act a).1.pending =
      q.pending ++ accepted q.mask [(a, (q.act a).2)] := by
  cases a with
  | push e =>
    have hresult := push_snd_result h e
    have haccepted : accepted q.mask [(.push e, .pushed (q.push e).2.result)] =
        if q.mask.wants e.kind = true ∧ q.pending.length < q.depth then [e] else [] := by
      rw [hresult]
      by_cases hwants : q.mask.wants e.kind = true
      · by_cases hfull : q.pending.length = q.depth
        · rw [if_pos ⟨hwants, hfull⟩, if_neg (by omega)]
          rfl
        · rw [if_neg fun h => hfull h.2, if_pos ⟨hwants, by omega⟩]
          simp only [accepted, List.filterMap_cons, if_pos hwants, List.filterMap_nil]
      · rw [if_neg fun h => hwants h.1, if_neg fun h => hwants h.1]
        simp only [accepted, List.filterMap_cons, if_neg hwants, List.filterMap_nil]
    exact (q.push_spec e).1.trans (congrArg (q.pending ++ ·) haccepted.symm)
  | peek => exact (List.append_nil _).symm
  | pop =>
    have hpop : taken [(.pop, .event q.pop.2.1)] = q.pop.2.1.toList := by
      cases h : q.pop.2.1 <;> simp [taken]
    show taken [(.pop, .event q.pop.2.1)] ++ q.pop.1.pending = q.pending ++ []
    rw [hpop, List.append_nil]
    exact (q.use_spec .pop).1
  | clear => exact absurd rfl ha

/-! ### What a run keeps -/

/-- A queue for `depth` events that the mask wants accounts for all that became of the
events in these calls. -/
structure AccountsFor (q : Event.Queue) (depth : Nat) (mask : Event.Mask)
    (calls : List (Action × Answer)) : Prop where
  depth_eq : q.depth = depth
  mask_eq : q.mask = mask
  within : q.pending.length ≤ q.depth
  conserved : taken (sinceClear calls) ++ q.pending = accepted mask (sinceClear calls)

namespace AccountsFor

variable {depth : Nat} {mask : Event.Mask} {calls : List (Action × Answer)}

theorem ofDepth (depth : Nat) (mask : Event.Mask) :
    (ofDepth depth mask).AccountsFor (if depth = 0 then 1000 else depth) mask [] :=
  ⟨rfl, rfl, Nat.zero_le _, rfl⟩

theorem act (h : q.AccountsFor depth mask calls) (a : Action) :
    (q.act a).1.AccountsFor depth mask (calls ++ [(a, (q.act a).2)]) := by
  obtain ⟨hdepth, hmask⟩ := q.depth_mask_act a
  refine ⟨hdepth.trans h.depth_eq, hmask.trans h.mask_eq, length_act_le h.within a, ?_⟩
  by_cases ha : a = .clear
  · subst ha
    rw [sinceClear, List.rtakeWhile_concat_neg _ _ _ Bool.false_ne_true]
    rfl
  · have hsince : sinceClear (calls ++ [(a, (q.act a).2)]) =
        sinceClear calls ++ [(a, (q.act a).2)] := by
      refine List.rtakeWhile_concat_pos _ _ _ ?_
      cases a with
      | clear => exact absurd rfl ha
      | push | peek | pop => rfl
    have hstep := taken_act h.within ha
    rw [h.mask_eq] at hstep
    calc taken (sinceClear (calls ++ [(a, (q.act a).2)])) ++ (q.act a).1.pending
        = taken (sinceClear calls) ++ (taken [(a, (q.act a).2)] ++ (q.act a).1.pending) := by
          rw [hsince, taken, List.filterMap_append, List.append_assoc]
          rfl
      _ = (taken (sinceClear calls) ++ q.pending) ++ accepted mask [(a, (q.act a).2)] := by
          rw [hstep, List.append_assoc]
      _ = accepted mask (sinceClear (calls ++ [(a, (q.act a).2)])) := by
          rw [h.conserved, hsince, accepted, accepted, accepted, List.filterMap_append]

theorem run (depth : Nat) (mask : Event.Mask) (actions : List Action) :
    ((Queue.ofDepth depth mask).run actions).1.AccountsFor (if depth = 0 then 1000 else depth) mask
      (callsOf Queue.act (Queue.ofDepth depth mask) actions) := by
  induction actions using List.reverseRecOn with
  | nil => exact ofDepth depth mask
  | append_singleton actions a ih =>
    unfold Queue.run at ih ⊢
    rw [runEach_concat_fst, callsOf_concat]
    exact ih.act a

end AccountsFor

/-- While nothing is taken or dropped, what is pending stays in front. -/
theorem isPrefix_run {later : List Action} (hlater : ∀ a ∈ later, a ≠ .pop ∧ a ≠ .clear)
    (q : Event.Queue) : q.pending <+: (q.run later).1.pending := by
  induction later generalizing q with
  | nil => exact List.prefix_rfl
  | cons a later ih =>
    have hact : q.pending <+: (q.act a).1.pending := by
      cases a with
      | push e =>
        have hpush := (q.push_spec e).1
        exact ⟨_, hpush.symm⟩
      | peek => exact List.prefix_rfl
      | pop => exact absurd rfl (hlater .pop List.mem_cons_self).1
      | clear => exact absurd rfl (hlater .clear List.mem_cons_self).2
    exact hact.trans (ih (fun b hb => hlater b (List.mem_cons_of_mem a hb)) _)

/-- **A queue is first in, first out.** However calls come, the queue holds no more than
its depth. It refuses an event exactly if the event is wanted and the queue is full,
and neither that event nor one that is not wanted changes anything. What was taken
since the last clear, and then what is pending, are the events that were accepted
since then. The event that is shown is the one that is taken next. -/
theorem fifo_run (depth : Nat) (mask : Event.Mask) (actions : List Action) :
    let q := ((ofDepth depth mask).run actions).1
    let calls := sinceClear (callsOf act (ofDepth depth mask) actions)
    let room := if depth = 0 then 1000 else depth
    q.pending.length ≤ room ∧
    (∀ e, (q.act (.push e)).2 = .pushed (
        if mask.wants e.kind = true ∧ q.pending.length = room then .error (.exhausted .queueFull)
        else .ok ()) ∧
      (mask.wants e.kind = false ∨ q.pending.length = room → (q.act (.push e)).1 = q)) ∧
    taken calls ++ q.pending = accepted mask calls ∧
    q.act .peek = (q, (q.act .pop).2) ∧
    ∀ e later, q.peek = some e → (∀ a ∈ later, a ≠ .pop ∧ a ≠ .clear) →
      ((q.run later).1.act .pop).2 = .event (some e) := by
  intro q calls room
  have h : q.AccountsFor room mask (callsOf act (ofDepth depth mask) actions) :=
    AccountsFor.run depth mask actions
  refine ⟨h.depth_eq ▸ h.within, fun e => ⟨?_, fun hnot => ?_⟩, h.conserved, ?_, ?_⟩
  · rw [← h.mask_eq, ← h.depth_eq]
    exact congrArg Answer.pushed (push_snd_result h.within e)
  · refine push_fst_of_not_accepted fun ⟨hwants, hroom⟩ => ?_
    rw [h.mask_eq] at hwants
    rw [h.depth_eq] at hroom
    rcases hnot with hunwanted | hfull
    · rw [hwants] at hunwanted
      cases hunwanted
    · omega
  · exact congrArg (fun e? => (q, Answer.event e?)) q.pop_eq_peek.symm
  · intro e later hpeek hlater
    obtain ⟨more, hmore⟩ := isPrefix_run hlater q
    show Answer.event (q.run later).1.pop.2.1 = _
    obtain ⟨rest, hrest⟩ : ∃ rest, q.pending = e :: rest := List.head?_eq_some_iff.1 hpeek
    rw [pop_eq_peek, peek, ← hmore, hrest]
    rfl

/-- A network of this name that comes. -/
def networkComes (name : String) : Event := .ofNames .newNetwork name "" 0 ""

/-- A queue for two events refuses a third one, and shows the first until it is taken. -/
theorem fifo_run_overflow :
    let q := ((ofDepth 2 .network).run [.push (networkComes "a"), .push (networkComes "b")]).1
    q.peek = some (networkComes "a") ∧
    (∀ a ∈ [.push (networkComes "c"), .peek], a ≠ Action.pop ∧ a ≠ Action.clear) ∧
    q.act (.push (networkComes "c")) = (q, .pushed (.error (.exhausted .queueFull))) ∧
    ((q.run [.push (networkComes "c"), .peek]).1.act .pop).2 =
      .event (some (networkComes "a")) := by
  intro q
  obtain ⟨-, hpush, -, -, hshown⟩ :=
    fifo_run 2 .network [.push (networkComes "a"), .push (networkComes "b")]
  have hfull : Event.Mask.network.wants (networkComes "c").kind = true ∧ q.pending.length = 2 := by
    decide
  have hlater : ∀ a ∈ [.push (networkComes "c"), .peek], a ≠ Action.pop ∧ a ≠ Action.clear := by
    simp
  obtain ⟨hresult, hkept⟩ := hpush (networkComes "c")
  refine ⟨rfl, hlater, Prod.ext (hkept (Or.inr hfull.2)) ?_, hshown _ _ rfl hlater⟩
  exact hresult.trans (congrArg Answer.pushed (if_pos hfull))

end Event.Queue
end SignalRegistry
