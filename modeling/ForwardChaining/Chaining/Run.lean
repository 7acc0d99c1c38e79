import ForwardChaining.Chaining.Transition

/-!
# Runs — the sequence of fact bases that an engine goes through

A `Run` can be moved by `Run.step`, which says what happened, or by `Run.next`, which yields the
initial facts and then the facts after each step. It ends at a fixpoint or with an error, and then
stays as it is. `Run.complete` steps until the run ends or a budget is used up.
-/

namespace ForwardChaining

/-- Where a run stands. -/
inductive Phase where
  | initial
  | running
  | finished
deriving DecidableEq, Repr

/-- What a step did. -/
inductive Progress where
  | derived
  /-- No rule was applicable, so the facts are final. -/
  | fixpoint
  /-- Nothing, for the run had ended before. -/
  | done
deriving DecidableEq, Repr

structure Outcome where
  facts : FactBase
  steps : Nat
  /-- Whether the run ended because no rule was applicable. -/
  fixpoint : Bool
deriving DecidableEq

/-- An engine at work on facts under a strategy. -/
structure Run (σ : Type) where
  engine : Engine
  strategy : Strategy σ
  state : σ
  facts : FactBase
  steps : Nat := 0
  phase : Phase := .initial

namespace Run

variable {σ : Type}

/-- One transition. -/
def step (r : Run σ) : Except InferenceError Progress × Run σ :=
  if r.phase = .finished then (.ok .done, r)
  else
    match r.engine.step r.strategy r.facts r.state with
    | (.ok (some F), state) =>
      (.ok .derived, { r with facts := F, state := state, steps := r.steps + 1, phase := .running })
    | (.ok none, state) => (.ok .fixpoint, { r with state := state, phase := .finished })
    | (.error e, state) => (.error e, { r with state := state, phase := .finished })

/-- The next fact base of the sequence: the initial facts first, nothing after the end. An error is
yielded once. -/
def next (r : Run σ) : Option (Except InferenceError FactBase) × Run σ :=
  -- the initial facts are an item of the sequence, but no step
  if r.phase = .initial then (some (.ok r.facts), { r with phase := .running })
  else
    match r.step with
    | (.ok .derived, s) => (some (.ok s.facts), s)
    | (.ok .fixpoint, s) => (none, s)
    | (.ok .done, s) => (none, s)
    | (.error e, s) => (some (.error e), s)

def isFinished (r : Run σ) : Bool :=
  r.phase = .finished

/-- The outcome of at most `budget` further steps. -/
def complete (r : Run σ) : Nat → Except InferenceError Outcome
  | 0 => .ok ⟨r.facts, r.steps, false⟩
  | budget + 1 =>
    match r.step with
    | (.ok .derived, s) => s.complete budget
    | (.ok .fixpoint, s) => .ok ⟨s.facts, s.steps, true⟩
    | (.ok .done, s) => .ok ⟨s.facts, s.steps, true⟩
    | (.error e, _) => .error e

def events (r : Run σ) : List Event :=
  if r.phase = .finished then [] else (r.engine.select r.strategy r.facts r.state).1.events r.facts

/-- What is reported on the way to the outcome of at most `budget` further steps. -/
def log (r : Run σ) : Nat → List Event
  | 0 => [.exhausted r.steps r.facts.size]
  | budget + 1 =>
    r.events ++
      match r.step with
      | (.ok .derived, s) => s.log budget
      | (.ok .fixpoint, s) => [.fixpoint s.steps s.facts.size]
      | (.ok .done, s) => [.fixpoint s.steps s.facts.size]
      | (.error _, _) => []

end Run

end ForwardChaining
