import ForwardChaining.Guard.Expr
import ForwardChaining.Text.Tagged

/-!
# Inference errors — why a step fails

Failing to match is no error, it only leaves fewer solutions. An `InferenceError` aborts the step in
which it arises.
-/

namespace ForwardChaining

/-- How a condition differs from what its form expects. -/
inductive ShapeError where
  | unregistered
  | negation
  | guard
  | expected (what : String)
deriving DecidableEq, Repr

namespace ShapeError

def text : ShapeError → String
  | unregistered => "no form is registered for this head"
  | negation => "a negation takes patterns"
  | guard => "a guard takes one expression"
  | expected what => "expected " ++ what

end ShapeError

/-- Why solving conditions or firing a rule fails. -/
inductive InferenceError where
  /-- A guard or a conclusion uses a variable that has no value. -/
  | unbound (v : Variable)
  /-- A guard applies an operation that has no result. -/
  | guard (e : OperationError)
  /-- A condition does not have the shape that its form expects. -/
  | malformed (head : Option Symbol) (reason : ShapeError)
  /-- A variable was to get a second value. -/
  | rebinding (e : Rebinding)
  /-- A strategy chose a candidate that is not there. -/
  | invalidChoice (index count : Nat)
deriving DecidableEq, Repr

namespace InferenceError

def ofUnbound (e : UnboundVariable) : InferenceError :=
  unbound e.var

/-- An unbound variable is reported the same way no matter where it is found. -/
def ofEval : EvalError → InferenceError
  | .unbound v => unbound v
  | .operation e => guard e

def message : InferenceError → String
  | unbound v => UnboundVariable.message ⟨v⟩
  | guard e => "guard failed: " ++ e.message
  | malformed head reason =>
    "malformed form with head " ++ Tagged.option Tagged.symbol head ++ ": " ++ reason.text
  | rebinding e => e.message
  | invalidChoice index count =>
    "strategy chose candidate " ++ index.repr ++ " out of " ++ count.repr

end InferenceError

end ForwardChaining
