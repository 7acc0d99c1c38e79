import ForwardChaining.Text.Tagged

/-!
# Events — what a run reports

The events of a run in the order in which they happen, each with the line that is written for it.
-/

namespace ForwardChaining

/-- Something a run reports. -/
inductive Event where
  | candidates (count facts : Nat)
  | choice (index count : Nat)
  | fired (rule : Nat) (binding : Binding) (added : Nat)
  | fixpoint (steps facts : Nat)
  | exhausted (budget facts : Nat)

namespace Event

def level : Event → String
  | candidates .. => "TRACE"
  | choice .. => "TRACE"
  | fired .. => "DEBUG"
  | fixpoint .. => "INFO"
  | exhausted .. => "INFO"

def message : Event → String
  | candidates count facts => count.repr ++ " candidates over " ++ facts.repr ++ " facts"
  | choice index count => "strategy chose candidate " ++ index.repr ++ " of " ++ count.repr
  | fired rule binding added =>
    "fired rule " ++ rule.repr ++ " with " ++ Tagged.binding binding ++ ", " ++ added.repr
      ++ " new facts"
  | fixpoint steps facts =>
    "fixpoint reached after " ++ steps.repr ++ " steps with " ++ facts.repr ++ " facts"
  | exhausted budget facts =>
    "step budget of " ++ budget.repr ++ " exhausted with " ++ facts.repr ++ " facts"

def line (e : Event) : String :=
  e.level ++ " " ++ e.message

end Event

end ForwardChaining
