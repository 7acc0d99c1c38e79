import ForwardChaining.Inference.Form

/-!
# Registries — which form resolves which condition

A registry maps head symbols to forms. A condition whose head has no form is looked up in the facts.
-/

namespace ForwardChaining

/-- Forms by the ordinal of their head symbol. -/
structure Registry where
  forms : OrdinalMap Form

namespace Registry

/-- The registry under which every condition is looked up in the facts. -/
def plain : Registry where
  forms := ∅

def find? (r : Registry) (head : Symbol) : Option Form :=
  r.forms.get? head.ordinal

/-- Registers a form for a head symbol, in place of the one that may be there. -/
def register (r : Registry) (head : Symbol) (form : Form) : Registry where
  forms := r.forms.insert head.ordinal form

def isRegistered (r : Registry) (head : Symbol) : Bool :=
  (r.find? head).isSome

/-- The registry of negations and guards. -/
def builtin : Registry :=
  (plain.register .negation .negation).register .guard .guard

def heads (r : Registry) : List Symbol :=
  r.forms.keys.map Symbol.mk

def lookup (r : Registry) (c : Condition) : Form :=
  (c.head?.bind r.find?).getD .factMatch

@[simp] theorem find?_plain (head : Symbol) : plain.find? head = none := rfl

@[grind =] theorem find?_register (r : Registry) (head other : Symbol) (form : Form) :
    (r.register head form).find? other = if other = head then some form else r.find? other := by
  cases head
  cases other
  simp only [find?, register, OrdinalMap.get?_insert, Symbol.mk.injEq]

end Registry

namespace Tagged

def registry (r : Registry) : String :=
  record "FormRegistry" ("heads: " ++ list (r.heads.map symbol) ++ ", ..")

end Tagged

end ForwardChaining
