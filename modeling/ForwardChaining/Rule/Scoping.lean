import ForwardChaining.Rule.Occurrence

/-!
# Scoping — variables that are used before they have a value

Conditions are solved from left to right, so a variable has a value only after a condition that
binds it. A guard that comes too early fails; a negation that comes too early asks for the absence
of all values instead of one. `Rule.issues` reports both, and conclusions with variables that no
condition binds.
-/

namespace ForwardChaining

/-- A variable that is used where it has no value. -/
inductive Issue where
  /-- A guard uses the variable before it is bound. -/
  | guard (v : Variable)
  /-- A negation uses the variable, which only a later condition binds. -/
  | negation (v : Variable)
  /-- A conclusion uses the variable, which no condition binds. -/
  | conclusion (v : Variable)
deriving DecidableEq, Repr

namespace Issue

def var : Issue → Variable
  | guard v => v
  | negation v => v
  | conclusion v => v

def message : Issue → String
  | guard v => "guard uses " ++ v.text ++ " before it is bound"
  | negation v => "negation uses " ++ v.text ++ ", which is only bound by a later condition"
  | conclusion v => "conclusion uses " ++ v.text ++ ", which no condition binds"

end Issue

/-- The variables that a condition can bind. Negations and guards bind none, forms that are not
built in are taken to bind all of theirs. -/
def Condition.binders : Condition → List Variable
  | .tuple t => t.vars
  | .form head args =>
    if head = .negation ∨ head = .guard then [] else (Condition.collect (.form head args) ∅).toList

namespace Argument

/-- The variables of the expressions among the arguments. -/
def guarded (args : List Argument) : VariableSet :=
  (args.filterMap expr?).foldl (fun used e => e.collect used) ∅

/-- The variables of the conditions among the arguments. -/
def negated (args : List Argument) : VariableSet :=
  (args.filterMap condition?).foldl (fun used c => c.collect used) ∅

theorem mem_guarded {args : List Argument} {v : Variable} :
    v ∈ guarded args ↔ v ∈ (args.filterMap expr?).flatMap Expr.vars := by
  simp only [guarded, Expr.collect_eq]
  rw [← VariableSet.mem_insertAll_empty, VariableSet.insertAll, List.foldl_flatMap]
  rfl

theorem mem_negated {args : List Argument} {v : Variable} :
    v ∈ negated args ↔ v ∈ (args.filterMap condition?).flatMap Condition.vars := by
  simp only [negated, Condition.collect_eq]
  rw [← VariableSet.mem_insertAll_empty, VariableSet.insertAll, List.foldl_flatMap]
  rfl

end Argument

mutual

/-- The issues of a condition, where `bound` are the variables bound before it and `later` those
that the conditions of the rule bind at all. -/
def Condition.issues (later bound : List Variable) : Condition → List Issue
  | .tuple _ => []
  | .form head args =>
    if head = .guard then
      ((Argument.guarded args).toList.filter (· ∉ bound)).map .guard
    else if head = .negation then
      -- a variable of the body alone is no issue: the negation quantifies over it
      ((Argument.negated args).toList.filter fun v => v ∉ bound ∧ v ∈ later).map .negation
        ++ Argument.bodyIssues later bound args
    else []

/-- The issues of the conditions among the arguments as a conjunction. -/
def Argument.bodyIssues (later bound : List Variable) : List Argument → List Issue
  | [] => []
  | .condition c :: args =>
    c.issues later bound ++ Argument.bodyIssues later (bound ++ c.binders) args
  | .term _ :: args => Argument.bodyIssues later bound args
  | .expr _ :: args => Argument.bodyIssues later bound args

end

/-- The issues of a conjunction: each condition sees what those before it bind. -/
def Condition.issuesOfAll (later : List Variable) : List Variable → List Condition → List Issue
  | _, [] => []
  | bound, c :: cs => c.issues later bound ++ Condition.issuesOfAll later (bound ++ c.binders) cs

/-- The body of a negation is a conjunction of the conditions among its arguments. -/
theorem Argument.bodyIssues_eq (later bound : List Variable) (args : List Argument) :
    Argument.bodyIssues later bound args
      = Condition.issuesOfAll later bound (args.filterMap Argument.condition?) := by
  induction args generalizing bound with
  | nil => rfl
  | cons a args ih =>
    cases a with
    | term t => exact ih bound
    | expr e => exact ih bound
    | condition c => exact congrArg (c.issues later bound ++ ·) (ih _)

namespace Rule

def binders (r : Rule) : List Variable :=
  r.conditions.flatMap Condition.binders

/-- All issues of a rule: first those of the conditions in their order, then those of the
conclusions. -/
def issues (r : Rule) : List Issue :=
  Condition.issuesOfAll r.binders [] r.conditions
    ++ ((ascending (r.conclusions.flatMap Tuple.vars)).filter (· ∉ r.binders)).map .conclusion

end Rule

structure ValidationError where
  rule : Nat
  issue : Issue
deriving DecidableEq, Repr

namespace ValidationError

def message (e : ValidationError) : String :=
  "rule " ++ e.rule.repr ++ ": " ++ e.issue.message

/-- The first issue of the first rule that has one. -/
def first? (rules : List Rule) : Option ValidationError :=
  rules.zipIdx.findSome? fun (r, i) => r.issues.head?.map (⟨i, ·⟩)

end ValidationError

end ForwardChaining
