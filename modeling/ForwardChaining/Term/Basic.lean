import ForwardChaining.Integer

/-!
# Terms — symbols, variables, atoms, tuples and facts

Symbols and variables are known by ordinals, which a `SymbolTable` and a `VariableScope` hand out.
An atom is a constant, a term an atom or a variable, a tuple a list of terms. A fact is a tuple
without variables.
-/

namespace ForwardChaining

/-- A constant known by name, such as `mother` or `jane` in `(mother jane paul)`. -/
structure Symbol where
  ordinal : Nat
deriving DecidableEq, Ord, Repr

namespace Symbol

/-- The symbol `not`, the head of negations. -/
def negation : Symbol := ⟨0⟩

/-- The symbol `if`, the head of guards. -/
def guard : Symbol := ⟨1⟩

/-- The names of the symbols above, by ordinal. Every symbol table starts with them. -/
def reserved : List String := ["not", "if"]

end Symbol

/-- A variable of a rule. Variables of different rules have nothing to do with each other. -/
structure Variable where
  ordinal : Nat
deriving DecidableEq, Ord, Repr

namespace Variable

def sigil : Char := '?'

def firsts (n : Nat) : List Variable :=
  (List.range n).map Variable.mk

/-- The text of a variable whose name is not known. -/
def text (v : Variable) : String :=
  "$" ++ v.ordinal.repr

theorem ordinal_inj {v w : Variable} : v.ordinal = w.ordinal ↔ v = w :=
  ⟨fun h => by cases v; cases w; cases h; rfl, congrArg Variable.ordinal⟩

end Variable

def isVariableName (name : String) : Bool :=
  name.toList.head? = some Variable.sigil

/-- A constant: a symbol or an integer. Symbols come before integers. -/
inductive Atom where
  | symbol (s : Symbol)
  | integer (i : Integer)
deriving DecidableEq, Ord, Repr

namespace Atom

def integer? : Atom → Option Integer
  | .integer i => some i
  | .symbol _ => none

def symbol? : Atom → Option Symbol
  | .symbol s => some s
  | .integer _ => none

end Atom

inductive Term where
  | var (v : Variable)
  | const (a : Atom)
deriving DecidableEq, Repr

namespace Term

def var? : Term → Option Variable
  | .var v => some v
  | .const _ => none

def atom? : Term → Option Atom
  | .const a => some a
  | .var _ => none

end Term

/-- A list of terms, such as `(father ?x ?y)`. -/
abbrev Tuple := List Term

/-- A list of atoms, such as `(father dan paul)`. -/
abbrev Fact := List Atom

namespace Tuple

def head? : Tuple → Option Symbol
  | .const (.symbol s) :: _ => some s
  | _ => none

/-- The variables, from left to right, as often as they occur. -/
def vars (t : Tuple) : List Variable :=
  t.filterMap Term.var?

end Tuple

namespace Fact

/-- Whether `f` is at most `g` in the order of facts: position by position, a shorter fact before
its extensions. -/
def le (f g : Fact) : Bool :=
  (compare f g).isLE

end Fact

end ForwardChaining
