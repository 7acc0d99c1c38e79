import ForwardChaining.FactBase
import ForwardChaining.Inference.Search
import ForwardChaining.Rule.Basic

/-!
# Forms — ways to resolve a condition

A `Form` gives a condition its meaning. It is told the known facts, the condition, and for the
conditions among the arguments the searches they stand for, so a form decides how nested conditions
are combined, but not what they mean. Facts, negations and guards are the forms of the language;
the others can be registered where a domain needs them.

A form is a pure function: asked the same again it answers the same. Of searches it has those of the
conditions that it was given, not a solver for conditions of its own making. The forms of the language
need no more; a form that solves further conditions, or answers by a state of its own, is none of
these.
-/

namespace ForwardChaining

/-- How a condition is resolved, as a function of what is known. -/
structure Form where
  /-- The search of a condition over the known facts, given the searches of the conditions among
  its arguments. -/
  resolve : FactBase → Condition → List Search → Search

namespace Form

/-- Fails for a condition that does not have the expected shape. -/
def reject {α : Type} (c : Condition) (reason : ShapeError) : Except InferenceError α :=
  .error (.malformed c.head? reason)

/-! ## 1. The forms of the language -/

def factMatch : Form where
  resolve F c _ b :=
    match c with
    | .tuple t => (F.query t b).mapError .rebinding
    | .form _ _ => reject c .unregistered

/-- Keeps the binding if the conditions among the arguments have no solution together. -/
def negation : Form where
  resolve _ c nested b :=
    match c with
    | .form _ args =>
      if args.all (·.condition?.isSome) then do
        let solutions ← Search.all nested b
        -- what the body binds stays inside
        return if solutions.isEmpty then [b] else []
      else
        reject c .negation
    | .tuple _ => reject c .negation

/-- Keeps the binding if the expression is true. -/
def guard : Form where
  resolve _ c _ b :=
    match c with
    | .form _ [.expr e] => do
      let p ← (e.holds b).mapError .ofEval
      return if p then [b] else []
    | _ => reject c .guard

/-! ## 2. Further forms -/

/-- Resolves `(head target choice ...)`: the target is one of the constants among the choices.
Arguments that are no terms do not count. -/
def oneOf : Form where
  resolve _ c _ b :=
    match c with
    | .form _ args =>
      match args.filterMap Argument.term? with
      | [] => .ok []
      | target :: choices =>
        ((choices.filterMap Term.atom?).filterMapM (target.matchAtom · b)).mapError .rebinding
    | .tuple _ => reject c (.expected "a special form")

/-- Resolves the tuple `(head x)`: the value of `x` is an even integer. -/
def even : Form where
  resolve _ c _ b :=
    match c with
    | .tuple (_ :: t :: _) => do
      match ← (t.ground b).mapError .ofUnbound with
      | .integer i => return if i.toInt % 2 = 0 then [b] else []
      | .symbol _ => return []
    | .tuple _ => reject c (.expected "an argument")
    | .form _ _ => reject c (.expected "a tuple")

/-- Resolves `(head condition ...)`: all the conditions hold together. -/
def conjunction : Form where
  resolve _ c nested b :=
    match c with
    | .form _ args =>
      if args.all (·.condition?.isSome) then Search.all nested b
      else reject c (.expected "patterns")
    | .tuple _ => reject c (.expected "a special form")

end Form

end ForwardChaining
