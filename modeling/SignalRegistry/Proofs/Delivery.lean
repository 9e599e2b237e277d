/-
# Delivery does not reach back

A call changes the hub and the blocks of its site and keeps a journal, which is
delivered entry by entry, to the listener and to the queue in use. Consumers use
their queues at any time, also while a journal is being delivered: a site at such
a moment is a `Midway`. A run is any sequence of calls, deliveries and uses in
which a call begins when the one before is delivered (`Midway.run`).

What calls return, and what they leave in the hub and the blocks, are the same in
all runs with the same calls, whatever listens, whichever queues are made and
whatever consumers do with them (`Midway.Alike.run`): a queue that is full loses
events in the middle of a call, and nothing else happens.

A queue that stays in use beside a listener gets what the listener hears, in that
order: the events that its mask wants, without those for which it had no room
(`Midway.Installed.run`). No queue ever holds more than its depth, so that one
without room holds exactly that many (`Midway.WithinDepth.run`).

Key definitions: `Event.Queue.use`, `Site.work`, `Site.report`, `Midway`,
`Midway.run`, `Midway.reports`, `Midway.hearings`, `Midway.taken`,
`Midway.Installed`.
Key theorems: `Site.act_eq_deliver`, `Midway.exists_run`, `Midway.Alike.run`,
`Midway.WithinDepth.run`, `Midway.Installed.run`, `Midway.delivery`.
-/
import SignalRegistry.Proofs.Refinement
import SignalRegistry.Proofs.Usability

namespace SignalRegistry

namespace Event.Queue

/-! ### The use of a queue -/

/-- What a consumer does with a queue. -/
inductive Use where
  | pop
  | drain
  | clear
  | poll (w : Waiter)

/-- The queue after a use, and the events that are gone from it, the oldest first. -/
def use (q : Event.Queue) : Use → Event.Queue × List Event
  | .pop => (q.pop.1, q.pop.2.1.toList)
  | .drain => q.drain
  | .clear => (q.clear, q.pending)
  | .poll w => ((q.poll w).1, [])

theorem await_eq (q : Event.Queue) : ∃ wake, q.await.1 = { q with wake := wake } := by
  unfold await
  split <;> exact ⟨_, rfl⟩

theorem poll_eq (q : Event.Queue) (w : Waiter) : ∃ wake, (q.poll w).1 = { q with wake := wake } := by
  cases w with
  | fresh =>
    unfold poll
    simp only
    split
    · exact q.await_eq
    · exact ⟨q.wake, rfl⟩
  | suspended => exact q.await_eq

/-- A use takes events from the front and leaves the rest. -/
theorem use_spec (q : Event.Queue) (u : Use) :
    (q.use u).2 ++ (q.use u).1.pending = q.pending ∧ (q.use u).1.depth = q.depth ∧
      (q.use u).1.mask = q.mask := by
  cases u with
  | pop =>
    unfold use pop
    cases hp : q.pending with
    | nil => exact ⟨hp, rfl, rfl⟩
    | cons e rest => exact ⟨rfl, rfl, rfl⟩
  | drain => exact ⟨List.append_nil _, rfl, rfl⟩
  | clear => exact ⟨List.append_nil _, rfl, rfl⟩
  | poll w =>
    obtain ⟨wake, hw⟩ := q.poll_eq w
    unfold use
    rw [hw]
    exact ⟨rfl, rfl, rfl⟩

theorem length_use_le {q : Event.Queue} (h : q.pending.length ≤ q.depth) (u : Use) :
    (q.use u).1.pending.length ≤ (q.use u).1.depth := by
  obtain ⟨hpending, hdepth, -⟩ := q.use_spec u
  have hlength := congrArg List.length hpending
  rw [List.length_append] at hlength
  omega

/-- An event is appended if the mask wants it and the queue has room. -/
theorem push_spec (q : Event.Queue) (e : Event) :
    (q.push e).1.pending = q.pending ++
        (if q.mask.wants e.kind = true ∧ q.pending.length < q.depth then [e] else []) ∧
      (q.push e).1.depth = q.depth ∧ (q.push e).1.mask = q.mask := by
  unfold push
  by_cases hwants : q.mask.wants e.kind = true
  · rw [if_pos hwants]
    by_cases hroom : q.pending.length < q.depth
    · rw [if_neg (Nat.not_le.2 hroom), if_pos ⟨hwants, hroom⟩]
      exact ⟨rfl, rfl, rfl⟩
    · rw [if_pos (Nat.not_lt.1 hroom), if_neg fun h => hroom h.2]
      exact ⟨(List.append_nil _).symm, rfl, rfl⟩
  · rw [if_neg hwants, if_neg fun h => hwants h.1]
    exact ⟨(List.append_nil _).symm, rfl, rfl⟩

end Event.Queue

namespace Site

/-! ### Calls without their delivery -/

/-- What an action returns. -/
inductive Answer where
  | block (ref : BlockRef)
  | result (r : Except Error Unit)
  | binding (b? : Option Binding)
  | value (v : Value)
  | signals (found : List Signal)
  | done

def answer (s : Site) : Action → Answer
  | .publish block => .block (s.publish block).2
  | .arrive id => .result (s.arrive id).2.1
  | .depart id => .result (s.depart id).2.1
  | .changeBlock id f => .result (s.changeBlock id f).2
  | .resolve ids => .binding (s.resolve ids).2.1
  | .resolvePath path own => .binding (s.resolvePath path own).2.1
  | .getPath path => .value (s.getPath path).2.1
  | .setPath path value => .result (s.setPath path value).2.1
  | .find path => .signals (s.hub.matching path)
  | .write b value state => .result (s.write b value state).2
  | .push i e => .result (s.push i e).2.1
  | .letGo _ | .allot _ | .listen _ | .openQueue _ _ | .openConfiguredQueue | .closeQueue
  | .changeQueue _ _ | .shutDown => .done

/-- The site after an action of which nothing has been delivered yet, and what is to
be delivered. -/
def work (s : Site) : Action → Site × Journal
  | .arrive id =>
    match s.memory.ref? id with
    | none => (s, [])
    | some ref =>
      let out := s.hub.arrive (s.aliveWith id) s.memory ref
      ({ s with hub := out.1, memory := out.2.1 }, out.2.2.2)
  | .depart id =>
    let out := s.hub.depart s.isAlive id
    ({ s with hub := out.1 }, out.2.2)
  | .resolve ids =>
    let out := s.hub.resolve s.isAlive s.memory ids
    ({ s with hub := out.1 }, out.2.2)
  | .resolvePath path own =>
    let out := s.hub.resolvePath s.isAlive s.memory path own
    ({ s with hub := out.1 }, out.2.2)
  | .getPath path =>
    let out := s.hub.getPath s.isAlive s.memory path
    ({ s with hub := out.1 }, out.2.2)
  | .setPath path value =>
    let out := s.hub.setPath s.isAlive s.memory path value
    ({ s with hub := out.1, memory := out.2.1 }, out.2.2.2)
  | .shutDown => ({ s.closeQueue with hub := s.hub.shutDown.1, listening := false }, s.hub.shutDown.2)
  | a => (s.act a, [])

/-- An action is its work and then the delivery of its journal, but for a push, of
which an error is remarked at once. -/
theorem act_delivered (s : Site) {a : Action} (ha : ∀ i e, a ≠ .push i e) :
    (s.act a, s.delivered a) = (s.work a).1.deliver (s.work a).2 := by
  cases a with
  | arrive id =>
    cases href : s.memory.ref? id with
    | none => simp only [act, delivered, arrive, work, href, deliver]
    | some ref => simp only [act, delivered, s.arrive_eq href, work, href]
  | depart id => simp only [act, delivered, depart, work]
  | resolve ids => simp only [act, delivered, resolve, work]
  | resolvePath path own => simp only [act, delivered, resolvePath, work]
  | getPath path => simp only [act, delivered, getPath, work]
  | setPath path value => simp only [act, delivered, setPath, work]
  | shutDown => simp only [act, delivered, shutDown, work]
  | push i e => exact absurd rfl (ha i e)
  | publish _ | letGo _ | changeBlock _ _ | allot _ | find _ | write _ _ _ | listen _
  | openQueue _ _ | openConfiguredQueue | closeQueue | changeQueue _ _ =>
    simp only [delivered, work, deliver]

theorem act_eq_deliver (s : Site) (a : Action) :
    s.act a = ((s.work a).1.deliver (s.work a).2).1 := by
  by_cases hpush : ∃ i e, a = .push i e
  · obtain ⟨i, e, rfl⟩ := hpush
    rfl
  · exact congrArg Prod.fst (s.act_delivered fun i e h => hpush ⟨i, e, h⟩)

/-- What is heard of an action is in its journal. -/
theorem heard_delivered (s : Site) (a : Action) :
    heard (s.delivered a) = heard ((s.work a).1.deliver (s.work a).2).2 := by
  by_cases hpush : ∃ i e, a = .push i e
  · obtain ⟨i, e, rfl⟩ := hpush
    exact s.heard_push i e
  · exact congrArg (fun out => heard out.2) (s.act_delivered fun i e h => hpush ⟨i, e, h⟩)

/-- What is seen of a call: its answer, and the hub and the blocks after it. -/
structure Report where
  answer : Answer
  hub : Hub
  memory : Memory

def report (s : Site) (a : Action) : Report := ⟨s.answer a, (s.work a).1.hub, (s.work a).1.memory⟩

/-- Actions one after the other of which nothing is delivered, with their reports. -/
def workAll (s : Site) (actions : List Action) : Site × List Report :=
  runEach (fun s a => ((s.work a).1, s.report a)) s actions

/-- The action arranges for the delivery of events, or interferes with it. -/
def Action.arranges : Action → Bool
  | .listen _ | .openQueue _ _ | .openConfiguredQueue | .closeQueue | .push _ _
  | .changeQueue _ _ => true
  | _ => false

/-- A call leaves the listener and the queues as they are, unless it ends them. -/
theorem work_eq (s : Site) {a : Action} (ha : a.arranges = false) (hend : a ≠ .shutDown) :
    ∃ hub memory held, (s.work a).1 = { s with hub := hub, memory := memory, held := held } := by
  cases a with
  | arrive id =>
    unfold work
    cases href : s.memory.ref? id with
    | none => exact ⟨s.hub, s.memory, s.held, by simp only [href]⟩
    | some ref =>
      let out := s.hub.arrive (s.aliveWith id) s.memory ref
      exact ⟨out.1, out.2.1, s.held, by simp only [href, out]⟩
  | shutDown => exact absurd rfl hend
  | listen _ => cases ha
  | openQueue _ _ => cases ha
  | openConfiguredQueue => cases ha
  | closeQueue => cases ha
  | push _ _ => cases ha
  | changeQueue _ _ => cases ha
  | publish block => exact ⟨s.hub, _, _, rfl⟩
  | letGo id => exact ⟨s.hub, s.memory, _, rfl⟩
  | changeBlock id f => exact ⟨s.hub, _, s.held, rfl⟩
  | allot grants => exact ⟨s.hub, _, s.held, rfl⟩
  | find path => exact ⟨s.hub, s.memory, s.held, rfl⟩
  | write b value state => exact ⟨s.hub, _, s.held, rfl⟩
  | depart id => exact ⟨_, s.memory, s.held, rfl⟩
  | resolve ids => exact ⟨_, s.memory, s.held, rfl⟩
  | resolvePath path own => exact ⟨_, s.memory, s.held, rfl⟩
  | getPath path => exact ⟨_, s.memory, s.held, rfl⟩
  | setPath path value => exact ⟨_, _, s.held, rfl⟩

/-- The sites differ in the listener and the queues at most. -/
structure Alike (s t : Site) : Prop where
  hub : s.hub = t.hub
  memory : s.memory = t.memory
  held : s.held = t.held

namespace Alike

variable {s t : Site} {a : Action}

theorem refl (s : Site) : Alike s s := ⟨rfl, rfl, rfl⟩

theorem isAlive (h : Alike s t) : s.isAlive = t.isAlive := by
  funext id
  unfold Site.isAlive
  rw [h.held, h.hub]

theorem closeQueue (h : Alike s t) : Alike s.closeQueue t.closeQueue where
  hub := s.hub_clearQueue.trans (h.hub.trans t.hub_clearQueue.symm)
  memory := s.memory_clearQueue.trans (h.memory.trans t.memory_clearQueue.symm)
  held := s.held_clearQueue.trans (h.held.trans t.held_clearQueue.symm)

/-- An arrangement for the delivery leaves the site as it is, in this respect. -/
theorem arrange (h : Alike s t) (ha : a.arranges = true) : Alike (s.work a).1 t := by
  suffices hsame : Alike (s.work a).1 s from
    ⟨hsame.hub.trans h.hub, hsame.memory.trans h.memory, hsame.held.trans h.held⟩
  have hclear : Alike s.clearQueue s := ⟨s.hub_clearQueue, s.memory_clearQueue, s.held_clearQueue⟩
  cases a with
  | listen _ => exact ⟨rfl, rfl, rfl⟩
  | openQueue depth mask => exact ⟨hclear.hub, hclear.memory, hclear.held⟩
  | openConfiguredQueue => exact ⟨hclear.hub, hclear.memory, hclear.held⟩
  | closeQueue => exact ⟨hclear.hub, hclear.memory, hclear.held⟩
  | push i e =>
    obtain ⟨qs, hq⟩ := s.push_eq i e
    simp only [Site.work, act, hq]
    exact ⟨rfl, rfl, rfl⟩
  | changeQueue i f => exact ⟨rfl, rfl, rfl⟩
  | _ => cases ha

/-- A call returns the same at both and does the same. -/
theorem work (h : Alike s t) (ha : a.arranges = false) :
    s.report a = t.report a ∧ Alike (s.work a).1 (t.work a).1 := by
  have halive := h.isAlive
  have hwith : s.aliveWith = t.aliveWith := by
    unfold aliveWith
    rw [halive]
  cases a with
  | publish block =>
    simp only [report, answer, Site.work, act, publish, h.hub, h.memory, h.held, true_and]
    exact ⟨rfl, rfl, rfl⟩
  | letGo id =>
    simp only [report, answer, Site.work, act, letGo, h.hub, h.memory, h.held, true_and]
    exact ⟨rfl, rfl, rfl⟩
  | arrive id =>
    cases href : t.memory.ref? id with
    | none =>
      simp only [report, answer, Site.work, arrive, h.hub, h.memory, href, true_and]
      exact h
    | some ref =>
      simp only [report, answer, Site.work, s.arrive_eq (h.memory ▸ href), t.arrive_eq href, h.hub,
        h.memory, h.held, href, hwith, true_and]
      exact ⟨rfl, rfl, rfl⟩
  | depart id =>
    simp only [report, answer, Site.work, depart, halive, h.hub, h.memory, h.held, true_and]
    exact ⟨rfl, rfl, rfl⟩
  | changeBlock id f =>
    simp only [report, answer, Site.work, act, changeBlock, h.hub, h.memory, h.held, true_and]
    exact ⟨rfl, rfl, rfl⟩
  | allot grants =>
    simp only [report, answer, Site.work, act, allot, h.hub, h.memory, h.held, true_and]
    exact ⟨rfl, rfl, rfl⟩
  | resolve ids =>
    simp only [report, answer, Site.work, Site.resolve, halive, h.hub, h.memory, h.held, true_and]
    exact ⟨rfl, rfl, rfl⟩
  | resolvePath path own =>
    simp only [report, answer, Site.work, Site.resolvePath, halive, h.hub, h.memory, h.held, true_and]
    exact ⟨rfl, rfl, rfl⟩
  | getPath path =>
    simp only [report, answer, Site.work, Site.getPath, halive, h.hub, h.memory, h.held, true_and]
    exact ⟨rfl, rfl, rfl⟩
  | setPath path value =>
    simp only [report, answer, Site.work, Site.setPath, halive, h.hub, h.memory, h.held, true_and]
    exact ⟨rfl, rfl, rfl⟩
  | find path =>
    simp only [report, answer, Site.work, act, h.hub, h.memory, true_and]
    exact h
  | write b value state =>
    simp only [report, answer, Site.work, act, write, halive, h.hub, h.memory, h.held, true_and]
    exact ⟨rfl, rfl, rfl⟩
  | shutDown =>
    have hclose := h.closeQueue
    simp only [report, answer, Site.work, h.hub, hclose.memory, hclose.held, true_and]
    exact ⟨rfl, rfl, rfl⟩
  | listen _ => cases ha
  | openQueue _ _ => cases ha
  | openConfiguredQueue => cases ha
  | closeQueue => cases ha
  | push _ _ => cases ha
  | changeQueue _ _ => cases ha

end Alike

/-- How many events are pending in the queue in use. -/
def pendingCount (s : Site) : Nat := (s.currentQueue.map fun q => q.pending.length).getD 0

/-- No queue holds more events than it may. -/
def WithinDepth (s : Site) : Prop :=
  ∀ (i : Nat) (q : Event.Queue), s.queues[i]? = some q → q.pending.length ≤ q.depth

namespace WithinDepth

variable {s : Site}

theorem ofConfig (config : Config) : WithinDepth (.ofConfig config) := by
  intro i q hi
  cases (Array.getElem?_empty ▸ hi : none = some q)

theorem changeQueue (h : WithinDepth s) (i : Nat) {f : Event.Queue → Event.Queue}
    (hf : ∀ q, q.pending.length ≤ q.depth → (f q).pending.length ≤ (f q).depth) :
    WithinDepth (s.changeQueue i f) := by
  intro k q hk
  have hmodify : (s.queues.modify i f)[k]? = some q := hk
  rw [Array.getElem?_modify] at hmodify
  split at hmodify
  · obtain ⟨q₀, hq₀, rfl⟩ := Option.map_eq_some_iff.1 hmodify
    exact hf q₀ (h k q₀ hq₀)
  · exact h k q hmodify

theorem push (h : WithinDepth s) (i : Nat) (e : Event) : WithinDepth (s.push i e).1 := by
  unfold Site.push
  cases hq : s.queues[i]? with
  | none => exact h
  | some q =>
    intro k q' hk
    have hset : (s.queues.setIfInBounds i (q.push e).1)[k]? = some q' := hk
    rw [Array.getElem?_setIfInBounds] at hset
    split at hset
    · split at hset
      · cases hset
        exact Event.Queue.length_push_le (h i q hq) e
      · cases hset
    · exact h k q' hset

theorem deliverEntry (h : WithinDepth s) (e : Entry) : WithinDepth (s.deliverEntry e).1 := by
  cases e with
  | remark r => exact h
  | notice e n =>
    show WithinDepth (s.enqueue e).1
    unfold enqueue
    split
    · exact h
    · exact h.push _ e

theorem clearQueue (h : WithinDepth s) : WithinDepth s.clearQueue := by
  unfold Site.clearQueue
  split
  · exact h.changeQueue _ fun q _ => Nat.zero_le _
  · exact h

theorem openQueue (h : WithinDepth s) (depth : Nat) (mask : Event.Mask) :
    WithinDepth (s.openQueue depth mask) := by
  intro k q hk
  have hpush : (s.clearQueue.queues.push _)[k]? = some q := hk
  rw [Array.getElem?_push] at hpush
  split at hpush
  · cases hpush
    exact Nat.zero_le _
  · exact h.clearQueue k q hpush

/-- Calls leave it so, unless one changes a queue in any way it likes. -/
theorem work (h : WithinDepth s) {a : Action} (ha : ∀ i f, a ≠ .changeQueue i f) :
    WithinDepth (s.work a).1 := by
  cases harranges : a.arranges with
  | false =>
    by_cases hend : a = .shutDown
    · subst hend
      exact h.clearQueue
    · obtain ⟨hub, memory, held, hsame⟩ := s.work_eq harranges hend
      rw [hsame]
      exact h
  | true =>
    cases a with
    | listen _ => exact h
    | openQueue depth mask => exact h.openQueue depth mask
    | openConfiguredQueue => exact h.openQueue _ _
    | closeQueue => exact h.clearQueue
    | push i e => exact h.push i e
    | changeQueue i f => exact absurd rfl (ha i f)
    | _ => cases harranges

end WithinDepth

end Site

/-! ### Sites in the middle of a call -/

/-- A site and what is still to be delivered of its last call. -/
structure Midway where
  site : Site
  untold : Journal := []

/-- What happens next at a site. -/
inductive Midway.Move where
  /-- A call begins. -/
  | call (a : Site.Action)
  /-- The next entry of the journal is delivered. -/
  | tell
  /-- A consumer uses a queue. -/
  | use (i : Nat) (u : Event.Queue.Use)

/-- What is seen of that. -/
inductive Midway.Sight where
  | answered (a : Site.Action) (report : Site.Report)
  /-- This was delivered while the queue in use had so many events pending. -/
  | told (out : List Delivery) (pending : Nat)
  /-- These events are gone from a queue. -/
  | used (i : Nat) (gone : List Event)

namespace Midway

/-- A call must wait until the one before is delivered; a consumer need not. -/
def step (m : Midway) : Move → Option (Midway × Sight)
  | .call a =>
    match m.untold with
    | [] => some (⟨(m.site.work a).1, (m.site.work a).2⟩, .answered a (m.site.report a))
    | _ :: _ => none
  | .tell =>
    match m.untold with
    | [] => none
    | e :: rest => some (⟨(m.site.deliverEntry e).1, rest⟩,
        .told (m.site.deliverEntry e).2 m.site.pendingCount)
  | .use i u => some (⟨m.site.changeQueue i fun q => (q.use u).1, m.untold⟩,
      .used i ((m.site.queues[i]?.map fun q => (q.use u).2).getD []))

def run (m : Midway) : List Move → Option (Midway × List Sight)
  | [] => some (m, [])
  | move :: moves =>
    (m.step move).bind fun (m, sight) => (m.run moves).map fun (m, sights) => (m, sight :: sights)

/-- The calls, without the arrangements for the delivery. -/
def calls (moves : List Move) : List Site.Action :=
  moves.filterMap fun
    | .call a => if a.arranges then none else some a
    | _ => none

/-- What is seen of these calls. -/
def reports (sights : List Sight) : List Site.Report :=
  sights.filterMap fun
    | .answered a report => if a.arranges then none else some report
    | _ => none

/-- The events that the listener hears, each with the number of events that were
pending in the queue in use. -/
def hearings (sights : List Sight) : List (Event × Nat) :=
  sights.flatMap fun
    | .told out pending => (heard out).map fun n => (n.1, pending)
    | _ => []

/-- The events that consumers take from a queue. -/
def taken (i : Nat) (sights : List Sight) : List Event :=
  sights.flatMap fun
    | .used k gone => if k = i then gone else []
    | _ => []

variable {m m' : Midway} {move : Move} {moves : List Move} {sight : Sight} {sights : List Sight}

theorem run_cons_eq_some_iff : m.run (move :: moves) = some (m', sights) ↔
    ∃ mid sight more, m.step move = some (mid, sight) ∧ mid.run moves = some (m', more) ∧
      sights = sight :: more := by
  rw [run]
  constructor
  · intro h
    obtain ⟨⟨mid, sight⟩, hstep, hrest⟩ := Option.bind_eq_some_iff.1 h
    obtain ⟨⟨last, more⟩, hmore, hlast⟩ := Option.map_eq_some_iff.1 hrest
    obtain ⟨rfl, rfl⟩ := Prod.mk.inj hlast
    exact ⟨mid, sight, more, hstep, hmore, rfl⟩
  · rintro ⟨mid, sight, more, hstep, hmore, rfl⟩
    rw [hstep, Option.bind_some]
    exact Option.map_eq_some_iff.2 ⟨_, hmore, rfl⟩

theorem run_append {m₁ m₂ : Midway} {more : List Move} {sights' : List Sight}
    (h : m.run moves = some (m₁, sights)) (h' : m₁.run more = some (m₂, sights')) :
    m.run (moves ++ more) = some (m₂, sights ++ sights') := by
  induction moves generalizing m sights with
  | nil =>
    obtain ⟨rfl, rfl⟩ := Prod.mk.inj (Option.some.inj h)
    exact h'
  | cons move moves ih =>
    obtain ⟨mid, sight, rest, hstep, hrest, rfl⟩ := run_cons_eq_some_iff.1 h
    exact run_cons_eq_some_iff.2 ⟨mid, sight, rest ++ sights', hstep, ih hrest, rfl⟩

/-- What a step is: the work of a call, a delivery or a use. -/
theorem step_cases (h : m.step move = some (m', sight)) :
    (∃ a, move = .call a ∧ m.untold = [] ∧ m' = ⟨(m.site.work a).1, (m.site.work a).2⟩ ∧
      sight = .answered a (m.site.report a)) ∨
    (∃ e rest, move = .tell ∧ m.untold = e :: rest ∧ m' = ⟨(m.site.deliverEntry e).1, rest⟩ ∧
      sight = .told (m.site.deliverEntry e).2 m.site.pendingCount) ∨
    ∃ i u, move = .use i u ∧
      m' = ⟨m.site.changeQueue i fun q => (q.use u).1, m.untold⟩ ∧
      sight = .used i ((m.site.queues[i]?.map fun q => (q.use u).2).getD []) := by
  obtain ⟨s, untold⟩ := m
  cases move with
  | call a =>
    cases untold with
    | nil =>
      obtain ⟨rfl, rfl⟩ := Prod.mk.inj (Option.some.inj h)
      exact .inl ⟨a, rfl, rfl, rfl, rfl⟩
    | cons e rest => cases h
  | tell =>
    cases untold with
    | nil => cases h
    | cons e rest =>
      obtain ⟨rfl, rfl⟩ := Prod.mk.inj (Option.some.inj h)
      exact .inr (.inl ⟨e, rest, rfl, rfl, rfl, rfl⟩)
  | use i u =>
    obtain ⟨rfl, rfl⟩ := Prod.mk.inj (Option.some.inj h)
    exact .inr (.inr ⟨i, u, rfl, rfl, rfl⟩)

/-! ### Calls that are delivered at once -/

/-- A journal is delivered entry by entry. -/
theorem run_tell (s : Site) (j : Journal) : ∃ sights,
    run ⟨s, j⟩ (List.replicate j.length .tell) = some (⟨(s.deliver j).1, []⟩, sights) ∧
      (hearings sights).map Prod.fst = (heard (s.deliver j).2).map Prod.fst := by
  induction j generalizing s with
  | nil => exact ⟨[], rfl, rfl⟩
  | cons e rest ih =>
    obtain ⟨sights, hrest, hheard⟩ := ih (s.deliverEntry e).1
    refine ⟨_, run_cons_eq_some_iff.2 ⟨_, _, sights, rfl, hrest, rfl⟩, ?_⟩
    have hout : (s.deliver (e :: rest)).2 =
        (s.deliverEntry e).2 ++ ((s.deliverEntry e).1.deliver rest).2 := rfl
    rw [hout, heard_append, List.map_append, ← hheard, hearings, List.flatMap_cons, List.map_append,
      ← hearings, List.map_map]
    rfl

theorem calls_cons (a : Site.Action) (moves : List Move) :
    calls (.call a :: moves) = if a.arranges then calls moves else a :: calls moves := by
  cases ha : a.arranges with
  | true => simp only [calls, List.filterMap_cons, ha, if_true]
  | false => simp only [calls, List.filterMap_cons, ha, Bool.false_eq_true, if_false]

theorem calls_replicate_tell (n : Nat) : calls (List.replicate n .tell) = [] := by
  rw [calls, List.filterMap_eq_nil_iff]
  intro move hmove
  rw [List.eq_of_mem_replicate hmove]

/-- A sequence of actions is a run in which each call is delivered before anything
else happens. -/
theorem exists_run (s : Site) (actions : List Site.Action) : ∃ moves sights,
    run ⟨s, []⟩ moves = some (⟨s.run actions, []⟩, sights) ∧
      (calls moves = actions.filter fun a => !a.arranges) ∧
      (hearings sights).map Prod.fst =
        ((runEach (fun s a => (s.act a, s.delivered a)) s actions).2.flatMap heard).map Prod.fst := by
  induction actions generalizing s with
  | nil => exact ⟨[], [], rfl, rfl, rfl⟩
  | cons a actions ih =>
    obtain ⟨told, htold, hheard⟩ := run_tell (s.work a).1 (s.work a).2
    rw [← s.act_eq_deliver, ← s.heard_delivered] at *
    obtain ⟨moves, sights, hrun, hcalls, hmore⟩ := ih (s.act a)
    refine ⟨.call a :: (List.replicate (s.work a).2.length .tell ++ moves), _,
      run_cons_eq_some_iff.2 ⟨_, _, _, rfl, run_append htold hrun, rfl⟩, ?_, ?_⟩
    · have hmoves : calls (List.replicate (s.work a).2.length .tell ++ moves) = calls moves := by
        rw [calls, List.filterMap_append, ← calls, calls_replicate_tell, List.nil_append]
        rfl
      rw [calls_cons, hmoves, hcalls]
      cases ha : a.arranges with
      | true => rw [List.filter_cons_of_neg (by simp [ha])]; rfl
      | false => rw [List.filter_cons_of_pos (by simp [ha])]; rfl
    · have hsights : hearings (.answered a (s.report a) :: (told ++ sights)) =
          hearings told ++ hearings sights := by
        rw [hearings, List.flatMap_cons, List.flatMap_append]
        rfl
      rw [hsights, List.map_append, hheard, hmore, runEach, List.flatMap_cons, List.map_append]

/-! ### What calls return -/

/-- Delivery changes nothing but the queues. -/
theorem Alike.deliverEntry {s t : Site} (h : s.Alike t) (e : Entry) :
    (s.deliverEntry e).1.Alike t := by
  cases e with
  | remark r => exact h
  | notice e n =>
    obtain ⟨qs, hq⟩ := s.enqueue_eq e
    have hsite : (s.deliverEntry (.notice e n)).1 = { s with queues := qs } := hq
    rw [hsite]
    exact ⟨h.hub, h.memory, h.held⟩

/-- What a run shows of its calls is what the calls alone do. By induction on the
moves: those that are no calls leave the site alike. -/
theorem Alike.run {t : Site} (ht : m.site.Alike t) (h : m.run moves = some (m', sights)) :
    reports sights = (t.workAll (calls moves)).2 ∧ m'.site.Alike (t.workAll (calls moves)).1 := by
  induction moves generalizing m t sights with
  | nil =>
    obtain ⟨rfl, rfl⟩ := Prod.mk.inj (Option.some.inj h)
    exact ⟨rfl, ht⟩
  | cons move moves ih =>
    obtain ⟨mid, sight, more, hstep, hmore, rfl⟩ := run_cons_eq_some_iff.1 h
    rcases step_cases hstep with ⟨a, rfl, -, rfl, rfl⟩ | ⟨e, rest, rfl, -, rfl, rfl⟩ |
        ⟨i, u, rfl, rfl, rfl⟩
    · rw [calls_cons]
      cases ha : a.arranges with
      | true =>
        have hreports : reports (.answered a (m.site.report a) :: more) = reports more := by
          simp only [reports, List.filterMap_cons, ha, if_true]
        rw [hreports, if_pos rfl]
        exact ih (ht.arrange ha) hmore
      | false =>
        have hreports : reports (.answered a (m.site.report a) :: more) =
            m.site.report a :: reports more := by
          simp only [reports, List.filterMap_cons, ha, Bool.false_eq_true, if_false]
        obtain ⟨hreport, hwork⟩ := ht.work ha
        obtain ⟨hrest, hlast⟩ := ih hwork hmore
        rw [hreports, if_neg Bool.false_ne_true, hrest, hreport]
        exact ⟨rfl, hlast⟩
    · have hrest := ih (Alike.deliverEntry ht e) hmore
      exact hrest
    · have hused : (m.site.changeQueue i fun q => (q.use u).1).Alike t := ⟨ht.hub, ht.memory, ht.held⟩
      have hrest := ih hused hmore
      exact hrest

/-! ### A queue beside a listener -/

/-- Consumers take events and add none. -/
theorem WithinDepth.step (h : m.site.WithinDepth) (hstep : m.step move = some (m', sight))
    (hmove : ∀ i f, move ≠ .call (.changeQueue i f)) : m'.site.WithinDepth := by
  rcases step_cases hstep with ⟨a, rfl, -, rfl, -⟩ | ⟨e, rest, -, -, rfl, -⟩ | ⟨i, u, -, rfl, -⟩
  · exact h.work fun i f ha => hmove i f (congrArg Move.call ha)
  · exact Site.WithinDepth.deliverEntry h e
  · exact Site.WithinDepth.changeQueue h i fun q hq => Event.Queue.length_use_le hq u

theorem WithinDepth.run (h : m.site.WithinDepth) (hrun : m.run moves = some (m', sights))
    (hmoves : ∀ i f, .call (.changeQueue i f) ∉ moves) : m'.site.WithinDepth := by
  induction moves generalizing m sights with
  | nil =>
    obtain ⟨rfl, rfl⟩ := Prod.mk.inj (Option.some.inj hrun)
    exact h
  | cons move moves ih =>
    obtain ⟨mid, sight, more, hstep, hmore, rfl⟩ := run_cons_eq_some_iff.1 hrun
    have hmid : mid.site.WithinDepth := WithinDepth.step h hstep fun i f hmove =>
      hmoves i f (hmove ▸ List.mem_cons_self)
    exact ih hmid hmore fun i f hmem => hmoves i f (List.mem_cons_of_mem _ hmem)

/-- Of events heard while so many were pending, those that the queue wants and had
room for. -/
def admitted (q : Event.Queue) (heard : List (Event × Nat)) : List Event :=
  (heard.filter fun (e, pending) => q.mask.wants e.kind && pending != q.depth).map Prod.fst

/-- A listener hears, and this queue is in use. -/
structure Installed (i : Nat) (q : Event.Queue) (s : Site) : Prop where
  listening : s.listening = true
  current : s.current = some i
  queue : s.queues[i]? = some q

namespace Installed

variable {i : Nat} {q : Event.Queue} {s : Site}

theorem pendingCount_eq (h : Installed i q s) : s.pendingCount = q.pending.length := by
  unfold Site.pendingCount Site.currentQueue
  rw [h.current, Option.bind_some, h.queue, Option.map_some, Option.getD_some]

theorem work (h : Installed i q s) {a : Site.Action} (ha : a.arranges = false)
    (hend : a ≠ .shutDown) : Installed i q (s.work a).1 := by
  obtain ⟨hub, memory, held, hsame⟩ := s.work_eq ha hend
  rw [hsame]
  exact ⟨h.listening, h.current, h.queue⟩

/-- An event is heard and put into the queue, which takes it or not. -/
theorem deliverEntry (h : Installed i q s) (e : Event) (n : Option Network) :
    Installed i (q.push e).1 (s.deliverEntry (.notice e n)).1 ∧
      heard (s.deliverEntry (.notice e n)).2 = [(e, n)] := by
  have hpush : (s.enqueue e).1 = { s with queues := s.queues.setIfInBounds i (q.push e).1 } := by
    unfold Site.enqueue Site.push
    simp only [h.current, h.queue]
  have hsite : (s.deliverEntry (.notice e n)).1 = (s.enqueue e).1 := rfl
  have hout : (s.deliverEntry (.notice e n)).2 = [.heard e n] ++ (s.enqueue e).2 := by
    unfold Site.deliverEntry
    simp only [h.listening, if_true]
  obtain ⟨hlt, -⟩ := Array.getElem?_eq_some_iff.1 h.queue
  rw [hsite, hpush, hout, heard_append, s.heard_enqueue, List.append_nil]
  refine ⟨⟨h.listening, h.current, ?_⟩, rfl⟩
  show (s.queues.setIfInBounds i (q.push e).1)[i]? = _
  rw [Array.getElem?_setIfInBounds, if_pos rfl, if_pos hlt]

/-- A consumer of this queue takes events from the front, and one of another queue
none. -/
theorem use (h : Installed i q s) (k : Nat) (u : Event.Queue.Use) :
    Installed i (if k = i then (q.use u).1 else q) (s.changeQueue k fun q => (q.use u).1) := by
  refine ⟨h.listening, h.current, ?_⟩
  show (s.queues.modify k _)[i]? = _
  rw [Array.getElem?_modify, h.queue]
  split <;> rfl

/-- A queue that is not full takes what its mask wants. -/
theorem pending_push (hbounded : q.pending.length ≤ q.depth) (e : Event) :
    (q.push e).1.pending = q.pending ++ admitted q [(e, q.pending.length)] := by
  have hroom : q.pending.length < q.depth ↔ q.pending.length ≠ q.depth := by omega
  rw [(q.push_spec e).1]
  simp only [hroom]
  congr 1
  unfold admitted
  by_cases htaken : q.mask.wants e.kind = true ∧ q.pending.length ≠ q.depth
  · rw [if_pos htaken, List.filter_cons_of_pos (by simpa using htaken)]
    rfl
  · rw [if_neg htaken, List.filter_cons_of_neg (by simpa using htaken)]
    rfl

/-- The queue after a step, which has lost what was taken and got what was admitted. -/
theorem step (h : Installed i q m.site) (hbounded : q.pending.length ≤ q.depth)
    (hstep : m.step move = some (m', sight))
    (hmove : ∀ a, move = .call a → a.arranges = false ∧ a ≠ .shutDown) :
    ∃ q', Installed i q' m'.site ∧ q'.depth = q.depth ∧ q'.mask = q.mask ∧
      taken i [sight] ++ q'.pending = q.pending ++ admitted q (hearings [sight]) := by
  rcases step_cases hstep with ⟨a, rfl, -, rfl, rfl⟩ | ⟨e, rest, rfl, -, rfl, rfl⟩ |
      ⟨k, u, rfl, rfl, rfl⟩
  · obtain ⟨ha, hend⟩ := hmove a rfl
    exact ⟨q, h.work ha hend, rfl, rfl, (List.append_nil _).symm⟩
  · cases e with
    | remark r => exact ⟨q, h, rfl, rfl, (List.append_nil _).symm⟩
    | notice e n =>
      obtain ⟨hinstalled, hheard⟩ := h.deliverEntry e n
      obtain ⟨-, hdepth, hmask⟩ := q.push_spec e
      refine ⟨_, hinstalled, hdepth, hmask, ?_⟩
      rw [pending_push hbounded e]
      simp only [taken, hearings, List.flatMap_cons, List.flatMap_nil, hheard, h.pendingCount_eq,
        List.map_cons, List.map_nil, List.append_nil, List.nil_append]
  · obtain ⟨hpending, hdepth, hmask⟩ := q.use_spec u
    have hnone : admitted q (hearings [.used k ((m.site.queues[k]?.map fun q => (q.use u).2).getD [])]) =
        [] := rfl
    refine ⟨_, h.use k u, ?_⟩
    rw [hnone, List.append_nil]
    by_cases hk : k = i
    · subst hk
      simp only [if_true, taken, List.flatMap_cons, List.flatMap_nil, h.queue, Option.map_some,
        Option.getD_some, List.append_nil]
      exact ⟨hdepth, hmask, hpending⟩
    · simp only [if_neg hk, taken, List.flatMap_cons, List.flatMap_nil, List.nil_append, and_self]

/-- What was taken from the queue in a run, and then what is pending in it, are what was
pending at first and then what was admitted. -/
theorem run (h : Installed i q m.site) (hwithin : m.site.WithinDepth)
    (hrun : m.run moves = some (m', sights))
    (hmoves : ∀ a, .call a ∈ moves → a.arranges = false ∧ a ≠ .shutDown) :
    ∃ q', Installed i q' m'.site ∧ q'.depth = q.depth ∧ q'.mask = q.mask ∧
      taken i sights ++ q'.pending = q.pending ++ admitted q (hearings sights) := by
  induction moves generalizing m q sights with
  | nil =>
    obtain ⟨rfl, rfl⟩ := Prod.mk.inj (Option.some.inj hrun)
    exact ⟨q, h, rfl, rfl, (List.append_nil _).symm⟩
  | cons move moves ih =>
    obtain ⟨mid, sight, more, hstep, hmore, rfl⟩ := run_cons_eq_some_iff.1 hrun
    have hmove : ∀ a, move = .call a → a.arranges = false ∧ a ≠ .shutDown := fun a ha =>
      hmoves a (ha ▸ List.mem_cons_self)
    have hwithin₁ : mid.site.WithinDepth := WithinDepth.step hwithin hstep fun k f hchange =>
      Bool.noConfusion (hmove _ hchange).1
    obtain ⟨q₁, h₁, hdepth₁, hmask₁, htaken₁⟩ := h.step (hwithin i q h.queue) hstep hmove
    obtain ⟨q₂, h₂, hdepth₂, hmask₂, htaken₂⟩ := ih h₁ hwithin₁ hmore fun a ha =>
      hmoves a (List.mem_cons_of_mem _ ha)
    refine ⟨q₂, h₂, hdepth₂.trans hdepth₁, hmask₂.trans hmask₁, ?_⟩
    have hadmitted : ∀ l, admitted q₁ l = admitted q l := by
      intro l
      unfold admitted
      rw [hdepth₁, hmask₁]
    calc taken i (sight :: more) ++ q₂.pending
        = taken i [sight] ++ (taken i more ++ q₂.pending) := by
          simp only [taken, List.flatMap_cons, List.flatMap_nil, List.append_nil, List.append_assoc]
      _ = (taken i [sight] ++ q₁.pending) ++ admitted q₁ (hearings more) := by
          rw [htaken₂, List.append_assoc]
      _ = q.pending ++ (admitted q (hearings [sight]) ++ admitted q (hearings more)) := by
          rw [htaken₁, hadmitted, List.append_assoc]
      _ = q.pending ++ admitted q (hearings (sight :: more)) := by
          simp only [admitted, hearings, List.flatMap_cons, List.flatMap_nil, List.append_nil,
            List.filter_append, List.map_append]

/-- A queue that is made beside a listener is installed, and empty. -/
theorem opened (s : Site) (depth : Nat) (mask : Event.Mask) : Installed s.clearQueue.queues.size
    (.ofDepth (if depth = 0 then s.hub.config.queueDepth.toNat else depth) mask)
    (({ s with listening := true } : Site).openQueue depth mask) where
  listening := by
    unfold Site.openQueue Site.clearQueue
    cases s.current <;> rfl
  current := by
    unfold Site.openQueue Site.clearQueue
    cases s.current <;> rfl
  queue := by
    unfold Site.openQueue Site.clearQueue
    cases s.current <;> exact Array.getElem?_push_size

end Installed

/-- **The queue gets what the listener hears.** Runs with the same calls show the same
of them and leave the same hub, whatever listens and whatever happens to queues.
While a listener and a queue are installed, the queue gets in order what the listener
hears, as far as its mask wants it, but for what is heard while as many events are
pending as the queue may hold. -/
theorem delivery (config : Config) :
    (∀ moves moves' m m' sights sights',
      run ⟨.ofConfig config, []⟩ moves = some (m, sights) →
      run ⟨.ofConfig config, []⟩ moves' = some (m', sights') → calls moves = calls moves' →
      reports sights = reports sights' ∧ m.site.hub = m'.site.hub) ∧
    ∀ before moves m₀ m seen sights i q,
      run ⟨.ofConfig config, []⟩ before = some (m₀, seen) →
      (∀ k f, .call (.changeQueue k f) ∉ before) → Installed i q m₀.site →
      m₀.run moves = some (m, sights) →
      (∀ a, .call a ∈ moves → a.arranges = false ∧ a ≠ .shutDown) →
      ∃ q', Installed i q' m.site ∧ q'.depth = q.depth ∧ q'.mask = q.mask ∧
        taken i sights ++ q'.pending = q.pending ++ admitted q (hearings sights) := by
  constructor
  · intro moves moves' m m' sights sights' h h' hcalls
    obtain ⟨hreports, halike⟩ := Alike.run (.refl _) h
    obtain ⟨hreports', halike'⟩ := Alike.run (.refl _) h'
    rw [← hcalls] at hreports' halike'
    exact ⟨hreports.trans hreports'.symm, halike.hub.trans halike'.hub.symm⟩
  · intro before moves m₀ m seen sights i q hbefore huses hinstalled hrun hmoves
    have hwithin : m₀.site.WithinDepth :=
      WithinDepth.run (Site.WithinDepth.ofConfig config) hbefore huses
    exact hinstalled.run hwithin hrun hmoves

/-- A listener comes, and a queue for one event. -/
def installing : List Move := [.call (.listen true), .call (.openQueue 1 .all)]

/-- A device comes while the one event that the queue may hold is taken from it. -/
def watched : List Move :=
  [.call (.publish (Site.infoBlock "gina" 1)), .call (.arrive 0), .tell, .use 0 .pop, .tell, .tell,
    .tell, .tell, .tell]

/-- The same device comes, and nothing has been told of it yet. -/
def unwatched : List Move := [.call (.publish (Site.infoBlock "gina" 1)), .call (.arrive 0)]

/-- The site with the listener and the queue. -/
def installedSite : Site := (Site.ofConfig .default).run [.listen true, .openQueue 1 .all]

/-- All the moves can be made, and of the last event the queue gets nothing. -/
theorem run_watched :
    (run ⟨.ofConfig .default, []⟩ unwatched).isSome = true ∧
    (run ⟨.ofConfig .default, []⟩ (installing ++ watched)).isSome = true ∧
    (run ⟨installedSite, []⟩ watched).map
      (fun out => ((hearings out.2).map (fun e => (e.1.kind, e.2)),
        (admitted (.ofDepth 1 .all) (hearings out.2)).map Event.kind)) =
    some ([(.newMemoryBlock, 0), (.newNetwork, 0), (.newDevice, 1)],
      [.newMemoryBlock, .newNetwork]) := by decide +kernel

/-- The queue has no room for the last event, and neither the calls nor the hub show
anything of it. -/
theorem delivery_watched :
    (∃ m m' sights sights',
      run ⟨.ofConfig .default, []⟩ (installing ++ watched) = some (m, sights) ∧
      run ⟨.ofConfig .default, []⟩ unwatched = some (m', sights') ∧
      reports sights = reports sights' ∧ m.site.hub = m'.site.hub) ∧
    ∃ m seen sights q',
      run ⟨.ofConfig .default, []⟩ installing = some (⟨installedSite, []⟩, seen) ∧
      Installed 0 (.ofDepth 1 .all) installedSite ∧
      run ⟨installedSite, []⟩ watched = some (m, sights) ∧
      (hearings sights).map (fun e => (e.1.kind, e.2)) =
        [(.newMemoryBlock, 0), (.newNetwork, 0), (.newDevice, 1)] ∧
      Installed 0 q' m.site ∧
      (taken 0 sights ++ q'.pending).map Event.kind = [.newMemoryBlock, .newNetwork] := by
  obtain ⟨hinert, hqueue⟩ := delivery .default
  obtain ⟨hunwatched, hwatched, hgiven⟩ := run_watched
  constructor
  · obtain ⟨⟨m, sights⟩, h⟩ := Option.isSome_iff_exists.1 hwatched
    obtain ⟨⟨m', sights'⟩, h'⟩ := Option.isSome_iff_exists.1 hunwatched
    exact ⟨m, m', sights, sights', h, h', hinert _ _ m m' sights sights' h h' rfl⟩
  · obtain ⟨⟨m, sights⟩, hrun, hseen⟩ := Option.map_eq_some_iff.1 hgiven
    obtain ⟨hheard, hadmitted⟩ := Prod.mk.inj hseen
    have huses : ∀ k f, .call (.changeQueue k f) ∉ installing := by
      intro k f hmem
      simp only [installing, List.mem_cons, Move.call.injEq, reduceCtorEq, List.not_mem_nil,
        or_false] at hmem
    have hmoves : ∀ a, .call a ∈ watched → a.arranges = false ∧ a ≠ .shutDown := by
      intro a ha
      simp only [watched, List.mem_cons, Move.call.injEq, reduceCtorEq, List.not_mem_nil,
        or_false] at ha
      rcases ha with rfl | rfl
      · exact ⟨rfl, Site.Action.noConfusion⟩
      · exact ⟨rfl, Site.Action.noConfusion⟩
    have hinstalled : Installed 0 (.ofDepth 1 .all) installedSite :=
      Installed.opened (.ofConfig .default) 1 .all
    obtain ⟨q', hlast, -, -, htaken⟩ :=
      hqueue installing watched _ m _ sights 0 _ rfl huses hinstalled hrun hmoves
    refine ⟨m, _, sights, q', rfl, hinstalled, hrun, hheard, hlast, ?_⟩
    rw [htaken]
    exact hadmitted

end Midway
end SignalRegistry
