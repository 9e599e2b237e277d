/-
# When a waiting consumer is woken

The events of a queue are guarded by a lock and its wake flag is not, so every
call takes several steps, and the steps of different calls interleave: a
producer appends or takes an event and then raises the flag, `clear` drops the
events and then lowers the flag, and the consumer's wait looks at the events
and at the flag in turn (`Scene.step`). One call after the other, these steps
are the operations of the queue (`Scene.run_push`, `Scene.run_pop`,
`Scene.run_clear`, `Scene.run_poll`).

A consumer that sleeps while events are pending has been woken if and only if
the first to touch the flag since it fell asleep has raised it
(`Scene.called_iff`). As long as no `clear` lowers the flag, no wakeup is lost.
A `clear` drops the waker of a consumer that sleeps, and then the next event
wakes nobody (`Scene.lost_wakeup`).

Key definitions: `Scene`, `Step`, `Scene.step`, `Scene.firstFlag?`, `Scene.Moves`.
Key theorems: `Scene.run_push`, `Scene.run_poll`, `Scene.called_iff`,
`Scene.lost_wakeup`.
-/
import Mathlib.Data.List.Induction
import SignalRegistry.Event.Queue

namespace SignalRegistry
namespace Event.Queue

/-- Where the consumer is in its wait. -/
inductive Stage where
  /-- It does not wait. -/
  | away
  /-- It is about to look whether an event is pending. -/
  | checking
  /-- It is about to look at the flag. -/
  | looking
  /-- Its last poll left a waker with the flag. -/
  | asleep
deriving DecidableEq

/-- A queue with the calls that are under way. -/
structure Scene where
  queue : Event.Queue
  /-- Calls that have appended or taken an event and are yet to raise the flag. -/
  raising : Nat := 0
  /-- Calls that have dropped the events and are yet to lower the flag. -/
  resetting : Nat := 0
  stage : Stage := .away
  /-- The waker left by the last poll has been called. -/
  called : Bool := false
deriving DecidableEq

/-- One step of a call, which no other call can divide. -/
inductive Step where
  /-- A producer appends an event, if it is wanted and there is room. -/
  | append (e : Event)
  /-- The oldest event is taken, if there is one. -/
  | take
  /-- A call that has appended or taken raises the flag. -/
  | raise
  /-- All events are dropped. -/
  | wipe
  /-- A call that has dropped the events lowers the flag. -/
  | reset
  /-- The consumer begins to wait. -/
  | start
  /-- The consumer looks whether an event is pending, and waits no longer if
  there is one. -/
  | check
  /-- The consumer looks at the flag: it lowers a raised one and checks again,
  and otherwise leaves its waker and falls asleep. -/
  | look
  /-- The consumer is polled again, called or not. -/
  | resume
deriving DecidableEq

/-- The step is one in which a call touches the flag. -/
def Step.flags : Step → Bool
  | .raise | .reset => true
  | _ => false

namespace Scene

/-- The scene after a step, if the step is due. -/
def step (s : Scene) : Step → Option Scene
  | .append e =>
    if s.queue.mask.wants e.kind ∧ s.queue.pending.length < s.queue.depth then
      some { s with
        queue := { s.queue with pending := s.queue.pending ++ [e] }, raising := s.raising + 1 }
    else some s
  | .take =>
    match s.queue.pending with
    | [] => some s
    | _ :: rest =>
      some { s with queue := { s.queue with pending := rest }, raising := s.raising + 1 }
  | .raise =>
    match s.raising with
    | 0 => none
    | n + 1 =>
      some { s with
        queue := { s.queue with wake := s.queue.wake.raise.1 }
        raising := n
        called := s.called || s.queue.wake.raise.2 }
  | .wipe =>
    some { s with queue := { s.queue with pending := [] }, resetting := s.resetting + 1 }
  | .reset =>
    match s.resetting with
    | 0 => none
    | n + 1 => some { s with queue := { s.queue with wake := .idle }, resetting := n }
  | .start => if s.stage = .away then some { s with stage := .checking } else none
  | .check =>
    if s.stage = .checking then
      some { s with stage := if s.queue.pending = [] then .looking else .away }
    else none
  | .look =>
    if s.stage = .looking then
      if s.queue.wake = .raised then
        some { s with queue := { s.queue with wake := .idle }, stage := .checking }
      else
        some { s with
          queue := { s.queue with wake := .waiting }, stage := .asleep, called := false }
    else none
  | .resume => if s.stage = .asleep then some { s with stage := .looking } else none

/-- The scene after a sequence of steps, if each is due in its turn. -/
def run (s : Scene) : List Step → Option Scene
  | [] => some s
  | a :: rest => (s.step a).bind fun s => s.run rest

/-- A queue at rest. -/
def ofDepth (depth : Nat) (mask : Event.Mask) : Scene := { queue := .ofDepth depth mask }

theorem run_append (s : Scene) (a b : List Step) :
    s.run (a ++ b) = (s.run a).bind fun s => s.run b := by
  induction a generalizing s with
  | nil => rfl
  | cons x a ih => simp only [List.cons_append, run, ih, Option.bind_assoc]

theorem run_singleton (s : Scene) (a : Step) : s.run [a] = s.step a := by
  simp only [run]
  cases s.step a <;> rfl

/-! ### Calls one after the other -/

variable (s : Scene)

/-- A push appends and then raises the flag, or does nothing. -/
theorem run_push (e : Event) :
    s.run (if s.queue.mask.wants e.kind ∧ s.queue.pending.length < s.queue.depth
      then [.append e, .raise] else []) =
    some { s with
      queue := (s.queue.push e).1, called := s.called || (s.queue.push e).2.woken } := by
  by_cases hw : s.queue.mask.wants e.kind = true
  · by_cases hd : s.queue.pending.length < s.queue.depth
    · simp [run, step, push, hw, hd, Nat.not_le.2 hd]
    · simp [run, push, hw, hd, Nat.not_lt.1 hd]
  · simp [run, push, hw]

/-- A pop takes and then raises the flag, or does nothing. -/
theorem run_pop : s.run (if s.queue.pending = [] then [] else [.take, .raise]) =
    some { s with queue := s.queue.pop.1, called := s.called || s.queue.pop.2.2 } := by
  cases hp : s.queue.pending with
  | nil => simp [run, pop, hp]
  | cons e rest => simp [run, step, pop, hp]

/-- A clear drops the events and then lowers the flag. -/
theorem run_clear : s.run [.wipe, .reset] = some { s with queue := s.queue.clear } := rfl

/-- The steps of a wait for the flag. -/
def awaitSteps (q : Event.Queue) : List Step :=
  if q.wake = .raised then
    if q.pending = [] then [.look, .check, .look] else [.look, .check]
  else [.look]

/-- The steps of a poll. -/
def pollSteps (q : Event.Queue) : Waiter → List Step
  | .fresh => if q.pending = [] then .start :: .check :: awaitSteps q else [.start, .check]
  | .suspended => .resume :: awaitSteps q

theorem run_await (hs : s.stage = .looking) : s.run (awaitSteps s.queue) = some { s with
    queue := s.queue.await.1
    stage := if s.queue.await.2 then .away else .asleep
    called := s.called && s.queue.await.2 } := by
  by_cases hw : s.queue.wake = .raised
  · by_cases hp : s.queue.pending = []
    · simp [awaitSteps, run, step, await, hs, hw, hp]
    · simp [awaitSteps, run, step, await, hs, hw, hp]
  · simp [awaitSteps, run, step, await, hs, hw]

/-- A poll ends with the consumer away, or asleep with its waker left. -/
theorem run_poll (w : Waiter)
    (hs : s.stage = match w with | .fresh => .away | .suspended => .asleep) :
    s.run (pollSteps s.queue w) = some { s with
      queue := (s.queue.poll w).1
      stage := if (s.queue.poll w).2 then .away else .asleep
      called := s.called && (s.queue.poll w).2 } := by
  cases w with
  | fresh =>
    by_cases hp : s.queue.pending = []
    · have hrun : s.run (pollSteps s.queue .fresh) =
          ({ s with stage := .looking } : Scene).run (awaitSteps s.queue) := by
        simp [pollSteps, run, step, hs, hp]
      rw [hrun, run_await _ rfl]
      simp only [poll, hp, if_true]
    · simp [pollSteps, run, step, poll, hs, hp]
  | suspended =>
    have hrun : s.run (pollSteps s.queue .suspended) =
        ({ s with stage := .looking } : Scene).run (awaitSteps s.queue) := by
      simp [pollSteps, run, step, hs]
    rw [hrun, run_await _ rfl]
    rfl

/-! ### What a step keeps -/

/-- The steps after the last that satisfies `p`, all of them if none does. -/
def since (p : Step → Bool) (steps : List Step) : List Step :=
  (steps.reverse.takeWhile fun a => !p a).reverse

theorem since_append_singleton (p : Step → Bool) (steps : List Step) (a : Step) :
    since p (steps ++ [a]) = if p a then [] else since p steps ++ [a] := by
  unfold since
  rw [List.reverse_append, List.reverse_singleton, List.singleton_append, List.takeWhile_cons]
  cases p a <;> simp

/-- The first to touch the flag since the consumer last looked at it. -/
def firstFlag? (steps : List Step) : Option Step := (since (· == .look) steps).find? Step.flags

/-- What holds of a consumer that sleeps: its waker is there until someone
touches the flag, and it was called if that was a raise. -/
def Woken (s : Scene) (first : Option Step) : Prop :=
  first = none ∧ s.queue.wake = .waiting ∧ s.called = false ∨
    first = some .raise ∧ s.called = true ∨
    first = some .reset ∧ s.queue.wake ≠ .waiting ∧ s.called = false

/-- Why a consumer that is about to sleep, or sleeps, misses no event: there is
none, or the flag is raised for it or will be. -/
structure Attended (s : Scene) : Prop where
  looking : s.stage = .looking →
    s.queue.pending = [] ∨ 0 < s.raising ∨ s.queue.wake = .raised
  asleep : s.stage = .asleep →
    s.called = true ∧ s.queue.wake = .raised ∨
      s.queue.wake = .waiting ∧ (s.queue.pending = [] ∨ 0 < s.raising)

theorem firstFlag?_append_singleton (steps : List Step) (a : Step) :
    firstFlag? (steps ++ [a]) = if a = .look then none
      else (firstFlag? steps).or (if a.flags then some a else none) := by
  unfold firstFlag?
  rw [since_append_singleton]
  by_cases ha : a = .look
  · simp [ha]
  · simp only [beq_iff_eq, ha, if_false, List.find?_append, List.find?_singleton]

variable {s} {s' : Scene} {a : Step}

/-- What a step does, with what makes it due. -/
inductive Moves (s : Scene) : Step → Scene → Prop where
  | refused (e : Event)
      (full : ¬ (s.queue.mask.wants e.kind ∧ s.queue.pending.length < s.queue.depth)) :
      Moves s (.append e) s
  | appended (e : Event)
      (room : s.queue.mask.wants e.kind ∧ s.queue.pending.length < s.queue.depth) :
      Moves s (.append e) { s with
        queue := { s.queue with pending := s.queue.pending ++ [e] }, raising := s.raising + 1 }
  | missed (empty : s.queue.pending = []) : Moves s .take s
  | taken (e : Event) (rest : List Event) (head : s.queue.pending = e :: rest) : Moves s .take
      { s with queue := { s.queue with pending := rest }, raising := s.raising + 1 }
  | raised (n : Nat) (due : s.raising = n + 1) : Moves s .raise
      { s with
        queue := { s.queue with wake := s.queue.wake.raise.1 }
        raising := n
        called := s.called || s.queue.wake.raise.2 }
  | wiped : Moves s .wipe
      { s with queue := { s.queue with pending := [] }, resetting := s.resetting + 1 }
  | lowered (n : Nat) (due : s.resetting = n + 1) : Moves s .reset
      { s with queue := { s.queue with wake := .idle }, resetting := n }
  | started (due : s.stage = .away) : Moves s .start { s with stage := .checking }
  | served (due : s.stage = .checking) (pending : s.queue.pending ≠ []) :
      Moves s .check { s with stage := .away }
  | unserved (due : s.stage = .checking) (empty : s.queue.pending = []) :
      Moves s .check { s with stage := .looking }
  | rechecked (due : s.stage = .looking) (flag : s.queue.wake = .raised) : Moves s .look
      { s with queue := { s.queue with wake := .idle }, stage := .checking }
  | slept (due : s.stage = .looking) (idle : s.queue.wake ≠ .raised) : Moves s .look
      { s with queue := { s.queue with wake := .waiting }, stage := .asleep, called := false }
  | resumed (due : s.stage = .asleep) : Moves s .resume { s with stage := .looking }

theorem moves_of_step (hs : s.step a = some s') : s.Moves a s' := by
  cases a with
  | append e =>
    simp only [step] at hs
    split at hs
    · rename_i room
      obtain rfl := Option.some_inj.1 hs
      exact .appended e room
    · rename_i full
      obtain rfl := Option.some_inj.1 hs
      exact .refused e full
  | take =>
    simp only [step] at hs
    split at hs
    · rename_i empty
      obtain rfl := Option.some_inj.1 hs
      exact .missed empty
    · rename_i e rest head
      obtain rfl := Option.some_inj.1 hs
      exact .taken e rest head
  | raise =>
    cases hn : s.raising with
    | zero => simp [step, hn] at hs
    | succ n =>
      simp only [step, hn] at hs
      obtain rfl := Option.some_inj.1 hs
      exact .raised n hn
  | wipe =>
    obtain rfl := Option.some_inj.1 hs
    exact .wiped
  | reset =>
    cases hn : s.resetting with
    | zero => simp [step, hn] at hs
    | succ n =>
      simp only [step, hn] at hs
      obtain rfl := Option.some_inj.1 hs
      exact .lowered n hn
  | start =>
    obtain ⟨due, rfl⟩ : s.stage = .away ∧ { s with stage := .checking } = s' := by
      simpa [step] using hs
    exact .started due
  | check =>
    by_cases hp : s.queue.pending = []
    · obtain ⟨due, rfl⟩ : s.stage = .checking ∧ { s with stage := .looking } = s' := by
        simpa [step, hp] using hs
      exact .unserved due hp
    · obtain ⟨due, rfl⟩ : s.stage = .checking ∧ { s with stage := .away } = s' := by
        simpa [step, hp] using hs
      exact .served due hp
  | look =>
    simp only [step] at hs
    split at hs
    · rename_i due
      split at hs
      · rename_i flag
        obtain rfl := Option.some_inj.1 hs
        exact .rechecked due flag
      · rename_i idle
        obtain rfl := Option.some_inj.1 hs
        exact .slept due idle
    · cases hs
  | resume =>
    obtain ⟨due, rfl⟩ : s.stage = .asleep ∧ { s with stage := .looking } = s' := by
      simpa [step] using hs
    exact .resumed due

theorem Woken.step {first : Option Step} (hw : s.stage = .asleep → s.Woken first)
    (hs : s.step a = some s') (hasleep : s'.stage = .asleep) :
    s'.Woken (if a = .look then none else first.or (if a.flags then some a else none)) := by
  cases moves_of_step hs with
  | refused | missed => simpa [Step.flags] using hw hasleep
  | appended | taken | wiped => simpa [Woken, Step.flags] using hw hasleep
  | raised n due =>
    -- The waker is called if it is still there.
    rcases hw hasleep with ⟨rfl, hwait, -⟩ | ⟨rfl, hcalled⟩ | ⟨rfl, hgone, hcalled⟩
    · exact Or.inr (Or.inl ⟨rfl, by simp [Wake.raise, hwait]⟩)
    · exact Or.inr (Or.inl ⟨rfl, by simp [hcalled]⟩)
    · exact Or.inr (Or.inr ⟨rfl, by simp [Wake.raise], by simp [Wake.raise, hgone, hcalled]⟩)
  | lowered n due =>
    rcases hw hasleep with ⟨rfl, -, hcalled⟩ | ⟨rfl, hcalled⟩ | ⟨rfl, -, hcalled⟩
    · exact Or.inr (Or.inr ⟨rfl, by simp, hcalled⟩)
    · exact Or.inr (Or.inl ⟨rfl, hcalled⟩)
    · exact Or.inr (Or.inr ⟨rfl, by simp, hcalled⟩)
  | slept due idle => exact Or.inl ⟨rfl, rfl, rfl⟩
  -- None of the others leaves the consumer asleep.
  | started | served | unserved | rechecked | resumed => cases hasleep

/-- A scene in which the consumer neither looks nor sleeps. -/
theorem attended_of_ne (hl : s.stage ≠ .looking) (ha : s.stage ≠ .asleep) : s.Attended :=
  ⟨fun h => absurd h hl, fun h => absurd h ha⟩

/-- A call that is yet to raise the flag makes up for what it did to the events. -/
theorem Attended.of_raising (ha : s.Attended) {pending : List Event} : Attended
    { s with queue := { s.queue with pending := pending }, raising := s.raising + 1 } := by
  refine ⟨fun _ => Or.inr (Or.inl (Nat.succ_pos _)), fun h => ?_⟩
  exact (ha.asleep h).imp_right fun hw => ⟨hw.1, Or.inr (Nat.succ_pos _)⟩

/-- A consumer that begins to wait has not looked at anything yet. -/
theorem attended_start (hs : s.step .start = some s') : s'.Attended := by
  cases moves_of_step hs
  exact attended_of_ne Stage.noConfusion Stage.noConfusion

theorem Attended.step (ha : s.Attended) (hne : a ≠ .reset) (hs : s.step a = some s') :
    s'.Attended := by
  cases moves_of_step hs with
  | refused | missed => exact ha
  | appended | taken => exact ha.of_raising
  | wiped =>
    exact ⟨fun _ => Or.inl rfl, fun h => (ha.asleep h).imp_right fun hw => ⟨hw.1, Or.inl rfl⟩⟩
  | raised n due =>
    refine ⟨fun _ => Or.inr (Or.inr rfl), fun h => Or.inl ⟨?_, rfl⟩⟩
    rcases ha.asleep h with ⟨hcalled, -⟩ | ⟨hwait, -⟩
    · simp [hcalled]
    · simp [Wake.raise, hwait]
  | lowered n due => exact absurd rfl hne
  | started | served | rechecked =>
    exact attended_of_ne Stage.noConfusion Stage.noConfusion
  | unserved due empty => exact ⟨fun _ => Or.inl empty, fun h => by cases h⟩
  | slept due idle =>
    refine ⟨fun h => (by cases h), fun _ => Or.inr ⟨rfl, ?_⟩⟩
    rcases ha.looking due with hp | hr | hw
    · exact Or.inl hp
    · exact Or.inr hr
    · exact absurd hw idle
  | resumed due =>
    refine ⟨fun _ => ?_, fun h => by cases h⟩
    rcases ha.asleep due with ⟨-, hw⟩ | ⟨-, hp | hr⟩
    · exact Or.inr (Or.inr hw)
    · exact Or.inl hp
    · exact Or.inr (Or.inl hr)

/-- By induction on the run, from its last step backwards. -/
theorem woken_run {depth : Nat} {mask : Event.Mask} (steps : List Step) :
    ∀ {s : Scene}, (ofDepth depth mask).run steps = some s →
      (s.stage = .asleep → s.Woken (firstFlag? steps)) ∧
        (.reset ∉ since (· == .start) steps → s.Attended) := by
  induction steps using List.reverseRecOn with
  | nil =>
    intro s h
    obtain rfl := Option.some_inj.1 h
    exact ⟨fun h => (by cases h), fun _ => attended_of_ne Stage.noConfusion Stage.noConfusion⟩
  | append_singleton steps a ih =>
    intro s' h
    rw [run_append, Option.bind_eq_some_iff] at h
    obtain ⟨s, hs, ha⟩ := h
    rw [run_singleton] at ha
    obtain ⟨hw, hat⟩ := ih hs
    refine ⟨fun hasleep => ?_, fun hreset => ?_⟩
    · rw [firstFlag?_append_singleton]
      exact Woken.step hw ha hasleep
    · by_cases hstart : a = .start
      · subst hstart
        exact attended_start ha
      · rw [since_append_singleton, if_neg (by simpa using hstart), List.mem_append, not_or] at hreset
        exact (hat hreset.1).step (fun he => hreset.2 (he ▸ List.mem_singleton_self _)) ha

/-- **A sleeping consumer is woken unless a `clear` comes between.** A consumer that
sleeps while an event is pending, with no raise of the flag still to come, has been
woken exactly if the first to touch the flag since it fell asleep has raised it. It
has been woken if no `clear` has lowered the flag since it began to wait. -/
theorem called_iff {depth : Nat} {mask : Event.Mask} {steps : List Step} {s : Scene}
    (hrun : (ofDepth depth mask).run steps = some s) (hasleep : s.stage = .asleep)
    (hpending : s.queue.pending ≠ []) (hraising : s.raising = 0) :
    (s.called = true ↔ firstFlag? steps = some .raise) ∧
      (.reset ∉ since (· == .start) steps → s.called = true) := by
  obtain ⟨hw, hat⟩ := woken_run steps hrun
  refine ⟨?_, fun hreset => ?_⟩
  · rcases hw hasleep with ⟨hfirst, -, hcalled⟩ | ⟨hfirst, hcalled⟩ | ⟨hfirst, -, hcalled⟩
    · simp [hfirst, hcalled]
    · simp [hfirst, hcalled]
    · simp [hfirst, hcalled]
  · rcases (hat hreset).asleep hasleep with ⟨hcalled, -⟩ | ⟨-, hp | hr⟩
    · exact hcalled
    · exact absurd hp hpending
    · exact absurd hr (by rw [hraising]; exact Nat.lt_irrefl 0)

/-- A network has come. -/
def arrival : Event := .ofNames .newNetwork "a" "" 0 ""

/-- A consumer polls an empty queue, and an event that comes then wakes it. -/
theorem called_of_push : ∃ s, (ofDepth 0 .all).run [.start, .check, .look, .append arrival, .raise] =
    some s ∧ s.stage = .asleep ∧ s.queue.pending ≠ [] ∧ s.raising = 0 ∧
      (s.called = true ↔
        firstFlag? [.start, .check, .look, .append arrival, .raise] = some .raise) ∧
      s.called = true := by
  refine ⟨_, rfl, rfl, List.cons_ne_nil _ _, rfl, ?_⟩
  have h := @called_iff 0 .all [.start, .check, .look, .append arrival, .raise] _ rfl rfl
    (List.cons_ne_nil _ _) rfl
  exact ⟨h.1, h.2 (by decide)⟩

/-- Not every consumer that sleeps while an event is pending has been woken,
even with no call under way: after a poll, a clear and a push it has not. -/
theorem lost_wakeup : ¬ ∀ (depth : Nat) (mask : Event.Mask) (steps : List Step) (s : Scene),
    (ofDepth depth mask).run steps = some s → s.stage = .asleep → s.queue.pending ≠ [] →
    s.raising = 0 → s.resetting = 0 → s.called = true := by
  intro h
  have hcalled := h 0 .all [.start, .check, .look, .wipe, .reset, .append arrival, .raise] _
    rfl rfl (List.cons_ne_nil _ _) rfl rfl
  cases hcalled

end Scene
end Event.Queue
end SignalRegistry
