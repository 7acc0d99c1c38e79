import ForwardChaining.Chaining.Event
import ForwardChaining.Chaining.Strategy

/-!
# Transitions — one step of the engine

A step enumerates the candidates, lets the strategy select one and fires it. A `Selection` records
how the first two parts went; what the step yields and what it reports are read off it.
-/

namespace ForwardChaining

/-- How a strategy selected a candidate. -/
inductive Selection where
  | failed (e : InferenceError)
  /-- There are no candidates, so the strategy is not asked. -/
  | noCandidates
  /-- The strategy chose an index that is not below the number of candidates. -/
  | invalid (index count : Nat)
  | chosen (index count : Nat) (c : Candidate)

namespace Selection

def candidate : Selection → Except InferenceError (Option Candidate)
  | failed e => .error e
  | noCandidates => .ok none
  | invalid index count => .error (.invalidChoice index count)
  | chosen _ _ c => .ok (some c)

/-- The facts after the selected candidate has fired, or nothing if there is no candidate. -/
def fire (s : Selection) (F : FactBase) : Except InferenceError (Option FactBase) := do
  match ← s.candidate with
  | none => return none
  | some c => return some (← c.fire F)

/-- What is reported about a selection and the firing that follows it. -/
def events (s : Selection) (F : FactBase) : List Event :=
  match s with
  | failed _ => []
  | noCandidates => [.candidates 0 F.size]
  | invalid index count => [.candidates count F.size, .choice index count]
  | chosen index count c =>
    .candidates count F.size :: .choice index count ::
      match c.fire F with
      | .ok G => [.fired c.ruleIndex c.binding (G.size - F.size)]
      -- a conclusion without a value: nothing has fired
      | .error _ => []

end Selection

namespace Engine

variable {σ : Type}

/-- Lets a strategy select one of the candidates. -/
def select (e : Engine) (strategy : Strategy σ) (F : FactBase) (state : σ) : Selection × σ :=
  match e.candidates F with
  | .error err => (.failed err, state)
  | .ok [] => (.noCandidates, state)
  | .ok (c :: cs) =>
    let (index, next) := strategy (c :: cs) state
    match (c :: cs)[index]? with
    | none => (.invalid index (c :: cs).length, next)
    | some chosen => (.chosen index (c :: cs).length chosen, next)

/-- The facts after one rule instance has fired, or nothing at a fixpoint. -/
def step (e : Engine) (strategy : Strategy σ) (F : FactBase) (state : σ) :
    Except InferenceError (Option FactBase) × σ :=
  let (selection, next) := e.select strategy F state
  (selection.fire F, next)

end Engine

end ForwardChaining
