import ForwardChaining.Term.Binding

/-!
# Instantiation — grounding under a binding, and matching as its inverse

Grounding replaces each variable of a tuple by its value. Matching goes the other way: given a tuple
and a fact it looks for the values under which the tuple grounds to the fact, and starts from a
binding that it may extend but not change.
-/

namespace ForwardChaining

/-- The variable that has no value where one was needed. -/
structure UnboundVariable where
  var : Variable
deriving DecidableEq, Repr

namespace UnboundVariable

def message (e : UnboundVariable) : String :=
  "variable " ++ e.var.text ++ " is not bound"

end UnboundVariable

/-! ## 1. Grounding -/

def Term.ground (b : Binding) : Term → Except UnboundVariable Atom
  | .const a => .ok a
  | .var v =>
    match b.get? v with
    | some a => .ok a
    | none => .error ⟨v⟩

/-- The fact that a tuple stands for. The first variable without a value is the error. -/
def Tuple.ground (b : Binding) (t : Tuple) : Except UnboundVariable Fact :=
  t.mapM (Term.ground b)

/-! ## 2. Matching -/

/-- Matches one term against an atom. A constant has to be that atom, and so has the value of a
variable; a variable without a value is given the atom. -/
def Term.matchAtom (t : Term) (a : Atom) (b : Binding) : Except Rebinding (Option Binding) :=
  match t with
  | .const c => .ok (if c = a then some b else none)
  | .var v =>
    match b.get? v with
    | some old => .ok (if old = a then some b else none)
    -- never refused: the variable has no value here
    | none => (b.extend v a).map some

/-- Matches a tuple against a fact, term by term from the left. Lengths have to agree. -/
def Tuple.matchFact : Tuple → Fact → Binding → Except Rebinding (Option Binding)
  | [], [], b => .ok (some b)
  | t :: ts, a :: as, b => do
    match ← t.matchAtom a b with
    | some c => Tuple.matchFact ts as c
    | none => return none
  | [], _ :: _, _ => .ok none
  | _ :: _, [], _ => .ok none

end ForwardChaining
