import ForwardChaining.Integer

/-!
# Operators — what guards compute and compare

The binary operators of guard expressions by family. Arithmetic is exact: an operation has a result
only if the exact result, and for a remainder also the quotient, is a 64-bit integer.
-/

namespace ForwardChaining

/-- Operations from integers to integers. -/
inductive ArithOp where
  | add
  | sub
  | mul
  /-- The quotient, rounded toward zero. -/
  | div
  /-- The remainder of that quotient. -/
  | rem
deriving DecidableEq, Repr

/-- Comparisons of integers by size. -/
inductive OrderOp where
  | lt
  | le
  | gt
  | ge
deriving DecidableEq, Repr

/-- Comparisons of two atoms or two booleans. -/
inductive EqualityOp where
  | eq
  | ne
deriving DecidableEq, Repr

/-- Connectives of booleans. -/
inductive LogicOp where
  | and
  | or
deriving DecidableEq, Repr

inductive BinaryOp where
  | arith (op : ArithOp)
  | order (op : OrderOp)
  | equality (op : EqualityOp)
  | logic (op : LogicOp)
deriving DecidableEq, Repr

namespace ArithOp

/-- The result on unbounded integers. There is none for a zero divisor. -/
def exact : ArithOp → Int → Int → Option Int
  | add, l, r => some (l + r)
  | sub, l, r => some (l - r)
  | mul, l, r => some (l * r)
  | div, l, r => if r = 0 then none else some (l.tdiv r)
  | rem, l, r => if r = 0 then none else some (l.tmod r)

/-- The result on 64-bit integers, if it is one. A remainder exists only where the quotient does. -/
def apply (op : ArithOp) (l r : Integer) : Option Integer :=
  match op with
  | rem => do
    -- the quotient itself is not used, but the remainder of -2^63 by -1 fails with it
    let _ ← Integer.ofInt? (← exact div l.toInt r.toInt)
    Integer.ofInt? (← exact rem l.toInt r.toInt)
  | op => do Integer.ofInt? (← exact op l.toInt r.toInt)

def text : ArithOp → String
  | add => "+"
  | sub => "-"
  | mul => "*"
  | div => "/"
  | rem => "%"

end ArithOp

namespace OrderOp

def holds : OrderOp → Integer → Integer → Bool
  | lt, l, r => l < r
  | le, l, r => l ≤ r
  | gt, l, r => r < l
  | ge, l, r => r ≤ l

def text : OrderOp → String
  | lt => "<"
  | le => "<="
  | gt => ">"
  | ge => ">="

end OrderOp

namespace EqualityOp

def holds {α : Type} [DecidableEq α] : EqualityOp → α → α → Bool
  | eq, l, r => l = r
  | ne, l, r => l ≠ r

def text : EqualityOp → String
  | eq => "="
  | ne => "!="

end EqualityOp

namespace LogicOp

/-- The value of the left operand that decides the result, whatever the right operand is. -/
def decisive : LogicOp → Bool
  | and => false
  | or => true

def text : LogicOp → String
  | and => "and"
  | or => "or"

end LogicOp

namespace BinaryOp

def text : BinaryOp → String
  | arith op => op.text
  | order op => op.text
  | equality op => op.text
  | logic op => op.text

def all : List BinaryOp :=
  [arith .add, arith .sub, arith .mul, arith .div, arith .rem, equality .eq, equality .ne,
    order .lt, order .le, order .gt, order .ge, logic .and, logic .or]

/-- The operator that is written so, if there is one. -/
def ofText? (text : String) : Option BinaryOp :=
  all.find? fun op => op.text = text

theorem ofText?_text (op : BinaryOp) : ofText? op.text = some op := by
  cases op <;> rename_i op <;> cases op <;> rfl

end BinaryOp

end ForwardChaining
