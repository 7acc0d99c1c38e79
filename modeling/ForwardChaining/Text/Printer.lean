import ForwardChaining.FactBase
import ForwardChaining.Rule.Basic

/-!
# Printing — rules and facts as s-expressions

A `Printer` knows names: symbols are printed by the names of its table, variables by the names of
its scope. What has no name is printed by its ordinal, as `<unk:7>` or `$7`.
-/

namespace ForwardChaining

structure Printer where
  symbols : SymbolTable
  scope : Option VariableScope := none

/-- Parts between parentheses, with a space between any two. -/
def parenthesized (parts : List String) : String :=
  "(" ++ " ".intercalate parts ++ ")"

namespace Printer

def symbol (p : Printer) (s : Symbol) : String :=
  (p.symbols.name? s).getD ("<unk:" ++ s.ordinal.repr ++ ">")

def var (p : Printer) (v : Variable) : String :=
  (p.scope.bind (·.name? v)).getD v.text

def atom (p : Printer) : Atom → String
  | .symbol s => p.symbol s
  | .integer i => i.text

def term (p : Printer) : Term → String
  | .var v => p.var v
  | .const a => p.atom a

def fact (p : Printer) (f : Fact) : String :=
  parenthesized (f.map p.atom)

def facts (p : Printer) (F : FactBase) : String :=
  String.join (F.facts.map fun f => p.fact f ++ "\n")

def tuple (p : Printer) (t : Tuple) : String :=
  parenthesized (t.map p.term)

def expr (p : Printer) : Expr Term → String
  | .leaf t => p.term t
  | .binary op left right => parenthesized [op.text, p.expr left, p.expr right]
  | .not operand => parenthesized ["not", p.expr operand]

mutual

def condition (p : Printer) : Condition → String
  | .tuple t => p.tuple t
  | .form head args => parenthesized (p.symbol head :: p.arguments args)

def argument (p : Printer) : Argument → String
  | .term t => p.term t
  | .condition c => p.condition c
  | .expr e => p.expr e

def arguments (p : Printer) : List Argument → List String
  | [] => []
  | a :: args => p.argument a :: p.arguments args

end

/-- The conditions, an arrow and the conclusions, with the variable names of the rule. -/
def rule (p : Printer) (r : Rule) : String :=
  let p := { p with scope := r.scope }
  String.join (r.conditions.map fun c => p.condition c ++ " ") ++ "=>"
    ++ String.join (r.conclusions.map fun t => " " ++ p.tuple t)

end Printer

end ForwardChaining
