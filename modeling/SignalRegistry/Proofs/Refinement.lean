/-
# Runs that track one another

A machine takes operations one after the other and answers each of them. What
it does can be described without its inner state by steps, each from a state of
the description to the next with the operation and its answer. If every
operation of the machine is such a step, every run of the machine is a run of
the description with the same answers (`Steps.of_tracks`).

Key definitions: `runEach`, `callsOf`, `Steps`.
-/
namespace SignalRegistry

variable {σ τ ι ω : Type}

/-- The operations one after the other, with all that they return. -/
def runEach (act : σ → ι → σ × ω) (t : σ) : List ι → σ × List ω
  | [] => (t, [])
  | i :: is =>
    let (t, answer) := act t i
    let (t, answers) := runEach act t is
    (t, answer :: answers)

/-- A run goes on where the one before it has ended. -/
theorem runEach_append_fst (act : σ → ι → σ × ω) (t : σ) (is later : List ι) :
    (runEach act t (is ++ later)).1 = (runEach act (runEach act t is).1 later).1 := by
  induction is generalizing t with
  | nil => rfl
  | cons j is ih => exact ih (act t j).1

/-- A run is its last operation after the others. -/
theorem runEach_concat_fst (act : σ → ι → σ × ω) (t : σ) (is : List ι) (i : ι) :
    (runEach act t (is ++ [i])).1 = (act (runEach act t is).1 i).1 :=
  runEach_append_fst act t is [i]

/-- The operations of a run, each with what it returned. -/
def callsOf (act : σ → ι → σ × ω) (t : σ) (is : List ι) : List (ι × ω) :=
  is.zip (runEach act t is).2

theorem callsOf_append (act : σ → ι → σ × ω) (t : σ) (is later : List ι) :
    callsOf act t (is ++ later) = callsOf act t is ++ callsOf act (runEach act t is).1 later := by
  induction is generalizing t with
  | nil => rfl
  | cons j is ih => exact congrArg ((j, (act t j).2) :: ·) (ih (act t j).1)

theorem callsOf_concat (act : σ → ι → σ × ω) (t : σ) (is : List ι) (i : ι) :
    callsOf act t (is ++ [i]) = callsOf act t is ++ [(i, (act (runEach act t is).1 i).2)] :=
  callsOf_append act t is [i]

/-- The steps of a run, one after the other. -/
inductive Steps (step : τ → ι → ω → τ → Prop) : τ → List ι → List ω → τ → Prop
  | nil {s : τ} : Steps step s [] [] s
  | cons {s s' s'' : τ} {i : ι} {answer : ω} {is : List ι} {answers : List ω} :
    step s i answer s' → Steps step s' is answers s'' →
      Steps step s (i :: is) (answer :: answers) s''

/-- By induction on the operations: each is a step, after which the states still
belong together. -/
theorem Steps.of_tracks {act : σ → ι → σ × ω} {step : τ → ι → ω → τ → Prop} {Tracks : σ → τ → Prop}
    (hact : ∀ t s i, Tracks t s → ∃ s', step s i (act t i).2 s' ∧ Tracks (act t i).1 s')
    {t : σ} {s : τ} (h : Tracks t s) (is : List ι) :
    ∃ s', Steps step s is (runEach act t is).2 s' ∧ Tracks (runEach act t is).1 s' := by
  induction is generalizing t s with
  | nil => exact ⟨s, .nil, h⟩
  | cons i is ih =>
    obtain ⟨s₁, hstep, h₁⟩ := hact t s i h
    obtain ⟨s₂, hsteps, h₂⟩ := ih h₁
    exact ⟨s₂, .cons hstep hsteps, h₂⟩

end SignalRegistry
