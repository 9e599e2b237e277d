/-
# The bounded event queue

Producers append events that the mask wants, and one consumer takes the oldest
first. A full queue refuses the newest event. An event appended or taken
raises the queue's wake flag; a consumer that waits asks whether an event is
pending, and otherwise looks at the flag: a raised flag is lowered and the
queue looked at again, and with no flag raised the consumer leaves its waker
to be called by the next raise.

Key definitions: `Event.Queue.push`, `Event.Queue.pop`, `Event.Queue.clear`,
`Event.Queue.poll`.
Key theorems: `Event.Queue.length_push_le`, `Event.Queue.pop_eq_peek`.
-/
import SignalRegistry.Error
import SignalRegistry.Event

namespace SignalRegistry

/-- The wake flag: nothing happened, it was raised, or a waker waits for it. -/
inductive Wake where
  | idle
  | raised
  | waiting
deriving DecidableEq, Repr

/-- Raises the flag; the answer is whether a waiting waker is called. -/
def Wake.raise (w : Wake) : Wake × Bool := (.raised, w == .waiting)

/-- How far a consumer's wait has come: it has not looked at the queue yet, or
it waits for the flag. -/
inductive Waiter where
  | fresh
  | suspended
deriving DecidableEq, Repr

/-- The pending events, the oldest first, and the wake flag. -/
structure Event.Queue where
  pending : List Event
  /-- How many events may be pending. -/
  depth : Nat
  mask : Event.Mask
  wake : Wake
deriving DecidableEq

namespace Event.Queue

/-- The depth when none is asked for. -/
def defaultDepth : Nat := 1000

/-- An empty queue; depth 0 asks for the default. -/
def ofDepth (depth : Nat) (mask : Event.Mask) : Event.Queue where
  pending := []
  depth := if depth = 0 then defaultDepth else depth
  mask := mask
  wake := .idle

instance : Inhabited Event.Queue := ⟨ofDepth 0 .all⟩

/-- What came of an append: the error if the event was refused, and whether a
waker was called. -/
structure Pushed where
  result : Except Error Unit
  woken : Bool

/-- Appends an event. One that the mask does not want is dropped, which is no
failure. -/
def push (q : Event.Queue) (e : Event) : Event.Queue × Pushed :=
  if q.mask.wants e.kind then
    if q.depth ≤ q.pending.length then (q, ⟨.error (.exhausted .queueFull), false⟩)
    else
      let (wake, woken) := q.wake.raise
      ({ q with pending := q.pending ++ [e], wake := wake }, ⟨.ok (), woken⟩)
  else (q, ⟨.ok (), false⟩)

/-- The oldest event, left where it is. -/
def peek (q : Event.Queue) : Option Event := q.pending.head?

/-- Takes the oldest event; the second answer is whether a waker was called. -/
def pop (q : Event.Queue) : Event.Queue × Option Event × Bool :=
  match q.pending with
  | [] => (q, none, false)
  | e :: rest =>
    let (wake, woken) := q.wake.raise
    ({ q with pending := rest, wake := wake }, some e, woken)

/-- Takes all events, one after the other. -/
def drain (q : Event.Queue) : Event.Queue × List Event :=
  let wake := if q.pending.isEmpty then q.wake else .raised
  ({ q with pending := [], wake := wake }, q.pending)

/-- Drops all events, the flag and a waiting waker. -/
def clear (q : Event.Queue) : Event.Queue := { q with pending := [], wake := .idle }

/-- Waits for the flag: a raised one is lowered, and the wait is over if an
event is pending. Otherwise the waker is left. -/
def await (q : Event.Queue) : Event.Queue × Bool :=
  if q.wake = .raised ∧ q.pending ≠ [] then ({ q with wake := .idle }, true)
  else ({ q with wake := .waiting }, false)

/-- One poll of a consumer's wait; the answer is whether the wait is over. -/
def poll (q : Event.Queue) (w : Waiter) : Event.Queue × Bool :=
  match w with
  | .fresh => if q.pending = [] then q.await else (q, true)
  | .suspended => q.await

/-- The pending events never exceed the depth. -/
theorem length_push_le {q : Event.Queue} (h : q.pending.length ≤ q.depth) (e : Event) :
    (q.push e).1.pending.length ≤ (q.push e).1.depth := by
  unfold push
  split
  · split
    · exact h
    · simp only [List.length_append, List.length_singleton]; omega
  · exact h

/-- What is shown first is taken first. -/
theorem pop_eq_peek (q : Event.Queue) : q.pop.2.1 = q.peek := by
  unfold pop peek
  split <;> simp_all

end Event.Queue
end SignalRegistry
