import ForwardChaining.Rule.Basic
import ForwardChaining.Term.VariableSet

/-!
# Occurrences — where variables stand in a rule

`Condition.vars` lists the variables of a condition from left to right, at every depth and as often as they
occur. Two traversals go through a condition without such a list: one adds its variables to a set
(`Condition.collect`), the other counts them (`Condition.tally`). The set and the tally are those of the list
(`Condition.collect_eq`, `Condition.tally_eq`).
-/

namespace ForwardChaining

/-! ## 1. Lists of occurrences -/

namespace Expr

def vars (e : Expr Term) : List Variable :=
  Tuple.vars e.leaves

theorem vars_leaf (t : Term) : (leaf t).vars = t.var?.toList := by
  cases t <;> rfl

theorem vars_binary (op : BinaryOp) (l r : Expr Term) : (binary op l r).vars = l.vars ++ r.vars :=
  List.filterMap_append

end Expr

mutual

def Condition.vars : Condition → List Variable
  | .tuple t => t.vars
  | .form _ args => Argument.varsOfAll args

def Argument.vars : Argument → List Variable
  | .term t => t.var?.toList
  | .condition c => c.vars
  | .expr e => e.vars

def Argument.varsOfAll : List Argument → List Variable
  | [] => []
  | a :: args => a.vars ++ Argument.varsOfAll args

end

theorem Argument.varsOfAll_eq_flatMap (args : List Argument) :
    Argument.varsOfAll args = args.flatMap Argument.vars := by
  induction args with
  | nil => rfl
  | cons a args ih => rw [Argument.varsOfAll, List.flatMap_cons, ih]

/-! ## 2. Collecting -/

/-- Adds the variables of an expression to a set. -/
def Expr.collect : Expr Term → VariableSet → VariableSet
  | leaf t, s => s.insertAll t.var?.toList
  | binary _ left right, s => right.collect (left.collect s)
  | not operand, s => operand.collect s

mutual

/-- Adds the variables of a condition to a set, at every depth. -/
def Condition.collect : Condition → VariableSet → VariableSet
  | .tuple t, s => s.insertAll t.vars
  | .form _ args, s => Argument.collectAll args s

def Argument.collect : Argument → VariableSet → VariableSet
  | .term t, s => s.insertAll t.var?.toList
  | .condition c, s => c.collect s
  | .expr e, s => e.collect s

def Argument.collectAll : List Argument → VariableSet → VariableSet
  | [], s => s
  | a :: args, s => Argument.collectAll args (a.collect s)

end

theorem Expr.collect_eq (e : Expr Term) (s : VariableSet) : e.collect s = s.insertAll e.vars := by
  induction e generalizing s with
  | leaf t => rw [collect, vars_leaf]
  | binary op l r ihl ihr =>
    rw [collect, ihl, ihr, vars_binary, VariableSet.insertAll_append]
  | not e ih =>
    rw [collect, ih]
    rfl

mutual

theorem Condition.collect_eq : (c : Condition) → (s : VariableSet) → c.collect s = s.insertAll c.vars
  | .tuple _, _ => rfl
  | .form _ args, s => Argument.collectAll_eq args s

theorem Argument.collect_eq : (a : Argument) → (s : VariableSet) → a.collect s = s.insertAll a.vars
  | .term _, _ => rfl
  | .condition c, s => Condition.collect_eq c s
  | .expr e, s => e.collect_eq s

theorem Argument.collectAll_eq :
    (args : List Argument) → (s : VariableSet) →
      Argument.collectAll args s = s.insertAll (Argument.varsOfAll args)
  | [], _ => rfl
  | a :: args, s => by
    rw [Argument.collectAll, Argument.collect_eq a, Argument.collectAll_eq args, Argument.varsOfAll,
      VariableSet.insertAll_append]

end

/-! ## 3. Counting -/

/-- How often variables have been counted, by ordinal. -/
abbrev Tally := OrdinalMap Nat

namespace Tally

def count (m : Tally) (v : Variable) : Tally :=
  m.insert v.ordinal ((m.get? v.ordinal).getD 0 + 1)

def countAll (m : Tally) (vs : List Variable) : Tally :=
  vs.foldl count m

theorem countAll_append {m : Tally} {vs ws : List Variable} :
    m.countAll (vs ++ ws) = (m.countAll vs).countAll ws :=
  List.foldl_append

end Tally

def Tuple.tally (t : Tuple) (m : Tally) : Tally :=
  m.countAll t.vars

/-- Counts the variables of an expression. -/
def Expr.tally : Expr Term → Tally → Tally
  | leaf t, m => Tuple.tally [t] m
  | binary _ left right, m => right.tally (left.tally m)
  | not operand, m => operand.tally m

mutual

/-- Counts the variables of a condition, at every depth. -/
def Condition.tally : Condition → Tally → Tally
  | .tuple t, m => t.tally m
  | .form _ args, m => Argument.tallyAll args m

def Argument.tally : Argument → Tally → Tally
  | .term t, m => Tuple.tally [t] m
  | .condition c, m => c.tally m
  | .expr e, m => e.tally m

def Argument.tallyAll : List Argument → Tally → Tally
  | [], m => m
  | a :: args, m => Argument.tallyAll args (a.tally m)

end

theorem Expr.tally_eq (e : Expr Term) (m : Tally) : e.tally m = m.countAll e.vars := by
  induction e generalizing m with
  | leaf t => rfl
  | binary op l r ihl ihr =>
    rw [tally, ihl, ihr, vars_binary, Tally.countAll_append]
  | not e ih =>
    rw [tally, ih]
    rfl

mutual

theorem Condition.tally_eq : (c : Condition) → (m : Tally) → c.tally m = m.countAll c.vars
  | .tuple _, _ => rfl
  | .form _ args, m => Argument.tallyAll_eq args m

theorem Argument.tally_eq : (a : Argument) → (m : Tally) → a.tally m = m.countAll a.vars
  | .term t, m => congrArg m.countAll (Expr.vars_leaf t)
  | .condition c, m => Condition.tally_eq c m
  | .expr e, m => e.tally_eq m

theorem Argument.tallyAll_eq :
    (args : List Argument) → (m : Tally) →
      Argument.tallyAll args m = m.countAll (Argument.varsOfAll args)
  | [], _ => rfl
  | a :: args, m => by
    rw [Argument.tallyAll, Argument.tally_eq a, Argument.tallyAll_eq args, Argument.varsOfAll,
      Tally.countAll_append]

end

namespace Rule

/-- The variables of the conditions and then those of the conclusions, as often as they occur. -/
def vars (r : Rule) : List Variable :=
  r.conditions.flatMap Condition.vars ++ r.conclusions.flatMap Tuple.vars

/-- Counts the variables of the conditions and then those of the conclusions. -/
def tally (r : Rule) : Tally :=
  let m := r.conditions.foldl (fun m c => c.tally m) ∅
  r.conclusions.foldl (fun m t => t.tally m) m

/-- The variables with the number of their occurrences, in ascending order. -/
def counts (r : Rule) : List (Variable × Nat) :=
  r.tally.entries.map fun p => (⟨p.1⟩, p.2)

/-- The variables that occur once, in ascending order. Such a variable matches anything, and its
value is not used. -/
def uniqueVariables (r : Rule) : List Variable :=
  (r.counts.filter (·.2 = 1)).map (·.1)

end Rule

end ForwardChaining
