import ForwardChaining.Guard.Operator
import ForwardChaining.Term.Instantiation

/-!
# Guard expressions — arithmetic and comparisons over bound variables

`Expr.eval` computes an expression under a binding, left operand first. A connective does not look
at its right operand once the left one decides. Computed integers are never bound to variables.
-/

namespace ForwardChaining

/-- An expression with leaves in `α`. The expressions of rules have terms as leaves. -/
inductive Expr (α : Type) where
  | leaf (x : α)
  | binary (op : BinaryOp) (left right : Expr α)
  | not (operand : Expr α)
deriving DecidableEq, Repr

inductive Value where
  | atom (a : Atom)
  | bool (p : Bool)
deriving DecidableEq, Repr

/-- What asks for operands of some sort. -/
inductive Asker where
  | binary (op : BinaryOp)
  | not
  /-- The guard, which asks its whole expression. -/
  | guard
deriving DecidableEq, Repr

/-- The sort of operands that is asked for. -/
inductive Demand where
  | integer
  | boolean
  /-- Two operands of one sort. -/
  | sameSort
deriving DecidableEq, Repr

/-- Why an operation on values has no result. -/
inductive OperationError where
  | typeMismatch (asker : Asker) (demand : Demand)
  /-- The result is not a 64-bit integer, or the divisor is zero. -/
  | arithmetic (op : ArithOp)
deriving DecidableEq, Repr

/-- Why an expression has no value. -/
inductive EvalError where
  | unbound (v : Variable)
  | operation (e : OperationError)
deriving DecidableEq, Repr

namespace Asker

def text : Asker → String
  | binary op => op.text
  | not => "not"
  | guard => "if"

end Asker

namespace Demand

def text : Demand → String
  | integer => "integer"
  | boolean => "boolean"
  | sameSort => "two atoms or two booleans"

end Demand

namespace OperationError

def message : OperationError → String
  | typeMismatch asker demand => "`" ++ asker.text ++ "` expects " ++ demand.text ++ " operands"
  | arithmetic op => "arithmetic error in `" ++ op.text ++ "`"

end OperationError

namespace EvalError

def message : EvalError → String
  | unbound v => UnboundVariable.message ⟨v⟩
  | operation e => e.message

end EvalError

namespace Value

def truth (asker : Asker) : Value → Except EvalError Bool
  | bool p => .ok p
  | atom _ => .error (.operation (.typeMismatch asker .boolean))

def number (asker : Asker) : Value → Except EvalError Integer
  | atom (.integer i) => .ok i
  | _ => .error (.operation (.typeMismatch asker .integer))

def compareWith (op : EqualityOp) : Value → Value → Except EvalError Bool
  | atom a, atom b => .ok (op.holds a b)
  | bool p, bool q => .ok (op.holds p q)
  | _, _ => .error (.operation (.typeMismatch (.binary (.equality op)) .sameSort))

end Value

namespace ArithOp

def value (op : ArithOp) (l r : Integer) : Except EvalError Value :=
  match op.apply l r with
  | some i => .ok (.atom (.integer i))
  | none => .error (.operation (.arithmetic op))

end ArithOp

namespace Expr

/-- The value of an expression under a binding. -/
def eval (b : Binding) : Expr Term → Except EvalError Value
  | leaf t =>
    match t.ground b with
    | .ok a => .ok (.atom a)
    | .error e => .error (.unbound e.var)
  | not operand => do
    let p ← (← operand.eval b).truth .not
    return .bool (!p)
  | binary (.logic op) left right => do
    let p ← (← left.eval b).truth (.binary (.logic op))
    -- the right operand may fail, but only where its value matters
    if p = op.decisive then
      return .bool p
    else
      let q ← (← right.eval b).truth (.binary (.logic op))
      return .bool q
  | binary (.equality op) left right => do
    let x ← left.eval b
    let y ← right.eval b
    let p ← x.compareWith op y
    return .bool p
  | binary (.order op) left right => do
    let l ← (← left.eval b).number (.binary (.order op))
    let r ← (← right.eval b).number (.binary (.order op))
    return .bool (op.holds l r)
  | binary (.arith op) left right => do
    let l ← (← left.eval b).number (.binary (.arith op))
    let r ← (← right.eval b).number (.binary (.arith op))
    op.value l r

/-- Whether an expression holds as a guard. It has to be a boolean. -/
def holds (b : Binding) (e : Expr Term) : Except EvalError Bool := do
  (← e.eval b).truth .guard

def leaves {α : Type} : Expr α → List α
  | leaf x => [x]
  | binary _ left right => left.leaves ++ right.leaves
  | not operand => operand.leaves

/-- Replaces the leaves, from left to right. -/
def mapM {α β : Type} {m : Type → Type} [Monad m] (f : α → m β) : Expr α → m (Expr β)
  | leaf x => return leaf (← f x)
  | binary op left right => do
    let l ← left.mapM f
    let r ← right.mapM f
    return binary op l r
  | not operand => return not (← operand.mapM f)

end Expr

end ForwardChaining
