import ForwardChaining.Guard.Expr
import ForwardChaining.Vocabulary.Basic

/-!
# Rules — conditions and conclusions

A condition is a plain tuple, which asks for a fact, or a special form `(head argument ...)`, whose
meaning depends on what is registered for its head. Negations `(not condition ...)` and guards
`(if expression)` are such forms. A rule adds its conclusions whenever its conditions hold.
-/

namespace ForwardChaining

mutual

inductive Condition where
  | tuple (terms : Tuple)
  | form (head : Symbol) (args : List Argument)

/-- An argument of a special form. Which arguments are accepted is up to the form. -/
inductive Argument where
  | term (t : Term)
  | condition (c : Condition)
  | expr (e : Expr Term)

end

namespace Argument

def condition? : Argument → Option Condition
  | condition c => some c
  | _ => none

def expr? : Argument → Option (Expr Term)
  | expr e => some e
  | _ => none

def term? : Argument → Option Term
  | term t => some t
  | _ => none

end Argument

namespace Condition

/-- The condition `(not body ...)`, which holds if the body has no solution as a conjunction. -/
def negation (body : List Condition) : Condition :=
  form .negation (body.map .condition)

/-- The condition `(if e)`, which holds if the expression is true. -/
def guard (e : Expr Term) : Condition :=
  form .guard [.expr e]

/-- The symbol that decides how the condition is resolved, if there is one. -/
def head? : Condition → Option Symbol
  | tuple t => t.head?
  | form head _ => some head

end Condition

/-- When all conditions hold under a binding, the conclusions grounded with it are facts. -/
structure Rule where
  /-- Solved from left to right. -/
  conditions : List Condition := []
  conclusions : List Tuple := []
  /-- The names of the variables, if the rule was built from names. -/
  scope : Option VariableScope := none

namespace Rule

/-- The facts that the conclusions stand for under a binding. -/
def instances (r : Rule) (b : Binding) : Except UnboundVariable (List Fact) :=
  r.conclusions.mapM (Tuple.ground b)

end Rule

end ForwardChaining
