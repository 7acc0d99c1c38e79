import ForwardChaining.Inference.Error

/-!
# Searches — what extends a binding to a solution

A search takes a binding to the list of its solutions or fails. Conditions are searches, and so is
their conjunction (`Search.all`), which tries them depth first.
-/

namespace ForwardChaining

/-- Extends a binding to solutions. -/
abbrev Search := Binding → Except InferenceError (List Binding)

namespace Search

/-- The conjunction of searches: all solutions of the first, each extended by the others in turn.
The first failure on this way is the failure of the whole. -/
def all : List Search → Search
  | [], b => .ok [b]
  | s :: rest, b => do
    -- the first search is finished before the others begin
    let solutions ← s b
    return (← solutions.mapM (all rest)).flatten

end Search

end ForwardChaining
