import ForwardChaining.Rule.Basic

/-!
# Clauses — rules written with names

A rule can be given as a list of clauses over names. All clauses of a rule, the nested ones too,
share one variable scope, so a name means the same variable wherever it stands. Clauses are read in
order, which decides the ordinals that new names get.
-/

namespace ForwardChaining

/-- A leaf of an expression in a clause: a name, or a term that is already known. -/
inductive Label where
  | name (name : String)
  | term (t : Term)
deriving DecidableEq, Repr

/-- One entry in a rule written with names. -/
inductive Clause where
  | condition (names : List String)
  | conclusion (names : List String)
  /-- The negation of the conditions among the clauses. -/
  | negation (body : List Clause)
  | guard (e : Expr Label)
  /-- A guard that compares two named terms. -/
  | comparison (op : BinaryOp) (left right : String)
  /-- Asks which variable a name means. The sigil may be missing. -/
  | askVariable (name : String)
  | askTerm (name : String)

/-- What clauses amount to. -/
structure Draft where
  conditions : List Condition := []
  conclusions : List Tuple := []
  /-- The answers to the clauses that ask, nested ones included. -/
  answers : List Term := []

namespace Draft

instance : Append Draft where
  append d e :=
    { conditions := d.conditions ++ e.conditions
      conclusions := d.conclusions ++ e.conclusions
      answers := d.answers ++ e.answers }

end Draft

def Label.read : Label → StateM Vocabulary Term
  | name n => Vocabulary.term n
  | term t => return t

mutual

def Clause.read : Clause → StateM Vocabulary Draft
  | .condition names => do
    let t ← Vocabulary.tuple names
    return { conditions := [.tuple t] }
  | .conclusion names => do
    let t ← Vocabulary.tuple names
    return { conclusions := [t] }
  | .negation body => do
    -- conclusions inside a negation are dropped
    let d ← Clause.readAll body
    return { conditions := [.negation d.conditions], answers := d.answers }
  | .guard e => do
    let e ← e.mapM Label.read
    return { conditions := [.guard e] }
  | .comparison op left right => do
    let l ← Vocabulary.term left
    let r ← Vocabulary.term right
    return { conditions := [.guard (.binary op (.leaf l) (.leaf r))] }
  | .askVariable name => do
    let v ← Vocabulary.var name
    return { answers := [.var v] }
  | .askTerm name => do
    let t ← Vocabulary.term name
    return { answers := [t] }

def Clause.readAll : List Clause → StateM Vocabulary Draft
  | [] => return {}
  | c :: cs => do
    let d ← c.read
    let e ← Clause.readAll cs
    return d ++ e

end

end ForwardChaining
