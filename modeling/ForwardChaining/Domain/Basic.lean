import ForwardChaining.Domain.Clause
import ForwardChaining.Inference.Registry
import ForwardChaining.Rule.Scoping
import ForwardChaining.Text.Printer

/-!
# Domains — everything a simulation needs

A `Domain` holds the symbol names, the rules, the initial facts and the registered forms. Rules and
facts are added as they are or by name.
-/

namespace ForwardChaining

/-- Rules and initial facts with the names and forms they use. -/
structure Domain where
  symbols : SymbolTable := .initial
  rules : List Rule := []
  /-- The initial facts as they were given, repetitions included. -/
  facts : List Fact := []
  forms : Registry := .builtin

namespace Domain

instance : EmptyCollection Domain where
  emptyCollection := {}

def insertRule (d : Domain) (r : Rule) : Domain :=
  { d with rules := d.rules ++ [r] }

def insertFact (d : Domain) (f : Fact) : Domain :=
  { d with facts := d.facts ++ [f] }

/-- Adds an initial fact by names. A variable among them is refused; the names before it are known
to the domain from then on. -/
def addFact (names : List String) : ExceptT VariableInFact (StateM Domain) Unit := fun d =>
  match SymbolTable.fact names d.symbols with
  | (.ok f, symbols) => (.ok (), { d with symbols := symbols, facts := d.facts ++ [f] })
  | (.error e, symbols) => (.error e, { d with symbols := symbols })

/-- Adds a rule written with names, and answers the clauses that ask. -/
def addRule (clauses : List Clause) : StateM Domain (List Term) := fun d =>
  -- the variables of a rule are its own, so each rule starts with an empty scope
  let (draft, words) := Clause.readAll clauses ⟨d.symbols, ∅⟩
  let rule : Rule :=
    { conditions := draft.conditions
      conclusions := draft.conclusions
      scope := some words.scope }
  (draft.answers, { d with symbols := words.symbols, rules := d.rules ++ [rule] })

def register (d : Domain) (head : Symbol) (form : Form) : Domain :=
  { d with forms := d.forms.register head form }

def initialFacts (d : Domain) : FactBase :=
  .ofList d.facts

/-- Fails if some rule uses a variable before it is bound. -/
def validate (d : Domain) : Except ValidationError Unit :=
  match ValidationError.first? d.rules with
  | some e => .error e
  | none => .ok ()

def printer (d : Domain) : Printer where
  symbols := d.symbols

end Domain

end ForwardChaining
