import ForwardChaining.Term.Binding

/-!
# Tagged notation — values with the names of their kinds

The notation of diagnostics: a value is written after the name of its kind, as in `Some(Sym(0))`,
lists stand in brackets and records in braces.
-/

namespace ForwardChaining.Tagged

def call (tag body : String) : String :=
  tag ++ "(" ++ body ++ ")"

def list (items : List String) : String :=
  "[" ++ ", ".intercalate items ++ "]"

def record (name body : String) : String :=
  name ++ " \x7b " ++ body ++ " \x7d"

def option {α : Type} (item : α → String) : Option α → String
  | some x => call "Some" (item x)
  | none => "None"

def symbol (s : Symbol) : String :=
  call "Sym" s.ordinal.repr

def atom : Atom → String
  | .symbol s => call "Sym" (symbol s)
  | .integer i => call "Int" i.text

/-- A binding as the row of its values up to the greatest bound variable. -/
def binding (b : Binding) : String :=
  record "Binding" ("slots: " ++ list (b.row.map (option atom)))

end ForwardChaining.Tagged
