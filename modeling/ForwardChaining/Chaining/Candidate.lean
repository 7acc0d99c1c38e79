import ForwardChaining.Inference.Solver

/-!
# Candidates — the rule instances that may fire

An `Engine` enumerates, over the known facts, the rules together with the bindings under which their
conditions hold: in the order of the rules, and for each rule in the order of its solutions. In
productive mode it keeps the instances that have something new to say.
-/

namespace ForwardChaining

namespace Rule

def apply (r : Rule) (b : Binding) (F : FactBase) : Except UnboundVariable FactBase := do
  return F.union (← r.instances b)

/-- Whether some conclusion is a new fact. The first one that is new decides; a variable without
a value before that is the error. -/
def isProductive (r : Rule) (b : Binding) (F : FactBase) : Except UnboundVariable Bool :=
  r.conclusions.anyM fun t => do
    let f ← t.ground b
    return f ∉ F

end Rule

/-- A rule with a binding under which all its conditions hold. -/
structure Candidate where
  ruleIndex : Nat
  rule : Rule
  binding : Binding

namespace Candidate

def fire (c : Candidate) (F : FactBase) : Except InferenceError FactBase :=
  (c.rule.apply c.binding F).mapError .ofUnbound

end Candidate

/-- Rules with the forms that resolve their conditions. -/
structure Engine where
  rules : List Rule
  forms : Registry := .builtin
  /-- Whether rule instances that add no fact are passed over. If they are not, such an instance
  stays applicable for ever. -/
  productiveOnly : Bool := false

namespace Engine

/-- Whether an instance of a rule counts as a candidate. -/
def offers (e : Engine) (F : FactBase) (r : Rule) (b : Binding) : Except InferenceError Bool :=
  if e.productiveOnly then (r.isProductive b F).mapError .ofUnbound else return true

def candidatesOf (e : Engine) (F : FactBase) (r : Rule) (index : Nat) :
    Except InferenceError (List Candidate) := do
  let solutions ← r.solutions e.forms F
  solutions.filterMapM fun b => do
    return if ← e.offers F r b then some ⟨index, r, b⟩ else none

/-- All candidates, in the order of the rules and then of their solutions. -/
def candidates (e : Engine) (F : FactBase) : Except InferenceError (List Candidate) := do
  let perRule ← e.rules.zipIdx.mapM fun (r, index) => e.candidatesOf F r index
  return perRule.flatten

end Engine

end ForwardChaining
