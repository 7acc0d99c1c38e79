import ForwardChaining.Inference.Registry

/-!
# Solving — the solutions of conditions over known facts

Under a registry and a fact base every condition stands for a search, by recursion on the nesting of
conditions. A list of conditions is solved as their conjunction.
-/

namespace ForwardChaining

mutual

/-- The search that a condition stands for. -/
def Condition.search (r : Registry) (F : FactBase) : Condition → Search
  | .tuple t => (r.lookup (.tuple t)).resolve F (.tuple t) []
  | .form head args =>
    (r.lookup (.form head args)).resolve F (.form head args) (Argument.searches r F args)

def Argument.searches (r : Registry) (F : FactBase) : List Argument → List Search
  | [] => []
  | .condition c :: args => c.search r F :: Argument.searches r F args
  | .term _ :: args => Argument.searches r F args
  | .expr _ :: args => Argument.searches r F args

end

theorem Argument.searches_eq (r : Registry) (F : FactBase) (args : List Argument) :
    Argument.searches r F args
      = (args.filterMap Argument.condition?).map (Condition.search r F) := by
  induction args with
  | nil => rfl
  | cons a args ih =>
    cases a with
    | term t => exact ih
    | expr e => exact ih
    | condition c => exact congrArg (c.search r F :: ·) ih

/-- The solutions of a list of conditions that extend a binding. -/
def solve (r : Registry) (F : FactBase) (cs : List Condition) : Search :=
  Search.all (cs.map (Condition.search r F))

/-- The bindings under which all conditions of a rule hold. -/
def Rule.solutions (rule : Rule) (r : Registry) (F : FactBase) :
    Except InferenceError (List Binding) :=
  solve r F rule.conditions ∅

end ForwardChaining
