import ForwardChaining.Vocabulary.SymbolStore

/-!
# Vocabulary — from names to symbols, variables, atoms and terms

A `SymbolTable` numbers the symbols: it is a store whose two parts agree. A `VariableScope` numbers the
variables of one rule, and a `Vocabulary` is a pair of both. Reading a name may enter it: a name with the
variable sigil belongs to the variable scope, the spelling of an integer is that integer, every other name is
a symbol. Names are read alike into tables and into bare stores.
-/

namespace ForwardChaining

/-! ## 1. Symbol tables -/

/-- A store in which names and symbols are inverse to each other, and the reserved names have their fixed
ordinals. -/
structure SymbolTable where
  store : SymbolStore
  inverse : store.Inverse
  reserved_le : Symbol.reserved <+: store.names
deriving DecidableEq

namespace SymbolTable

def initial : SymbolTable where
  store := .initial
  inverse := SymbolStore.inverse_initial
  reserved_le := SymbolStore.names_initial ▸ List.prefix_refl _

def find? (t : SymbolTable) (name : String) : Option Symbol :=
  t.store.find? name

def name? (t : SymbolTable) (s : Symbol) : Option String :=
  t.store.name? s

def names (t : SymbolTable) : List String :=
  t.store.names

def size (t : SymbolTable) : Nat :=
  t.store.size

def isEmpty (t : SymbolTable) : Bool :=
  t.store.isEmpty

/-- The symbol with a name, which is entered if it is new. -/
def intern (name : String) : StateM SymbolTable Symbol := fun t =>
  ((t.store.intern name).1,
    { store := (t.store.intern name).2
      inverse := t.inverse.intern name
      reserved_le := t.reserved_le.trans (t.store.names_isPrefix_intern name) })

end SymbolTable

/-! ## 2. Reading constants -/

/-- The refusal of a fact that names a variable. -/
structure VariableInFact where
  name : String
deriving DecidableEq, Repr

namespace VariableInFact

def message (e : VariableInFact) : String :=
  "fact contains variable `" ++ e.name ++ "`"

end VariableInFact

/-- What symbols are interned in and looked up in: a table, or a store of which it is not known whether its
parts agree. -/
class Interning (τ : Type) where
  find? : τ → String → Option Symbol
  intern : String → StateM τ Symbol

namespace Interning

instance : Interning SymbolStore where
  find? := SymbolStore.find?
  intern := SymbolStore.intern

instance : Interning SymbolTable where
  find? := SymbolTable.find?
  intern := SymbolTable.intern

variable {τ : Type} [Interning τ]

/-- The atom with a name. What is not the spelling of an integer is a symbol. -/
def atom (name : String) : StateM τ Atom :=
  match Integer.ofText? name with
  | some i => return .integer i
  | none => return .symbol (← intern name)

def constant (name : String) : ExceptT VariableInFact (StateM τ) Atom :=
  if isVariableName name then throw ⟨name⟩ else (atom name : StateM τ Atom)

/-- The fact with the given names. The first variable among them is refused; the names before it
stay entered, those after it are not looked at. -/
def fact (names : List String) : ExceptT VariableInFact (StateM τ) Fact :=
  names.mapM constant

end Interning

namespace SymbolTable

abbrev atom (name : String) : StateM SymbolTable Atom :=
  Interning.atom name

abbrev fact (names : List String) : ExceptT VariableInFact (StateM SymbolTable) Fact :=
  Interning.fact names

end SymbolTable

/-! ## 3. Variable scopes -/

/-- The names of variables by ordinal. -/
structure VariableScope where
  names : List String
deriving DecidableEq

namespace VariableScope

instance : EmptyCollection VariableScope where
  emptyCollection := ⟨[]⟩

/-- The variable with a name is looked for from the front. -/
def find? (s : VariableScope) (name : String) : Option Variable :=
  (s.names.idxOf? name).map Variable.mk

def name? (s : VariableScope) (v : Variable) : Option String :=
  s.names[v.ordinal]?

def size (s : VariableScope) : Nat :=
  s.names.length

def isEmpty (s : VariableScope) : Bool :=
  s.names.isEmpty

/-- The variable with a name, which is entered if it is new. -/
def intern (name : String) : StateM VariableScope Variable := fun s =>
  match s.find? name with
  | some v => (v, s)
  | none => (⟨s.size⟩, ⟨s.names ++ [name]⟩)

/-- The scope with the given names, each at its first place. -/
def ofNames (names : List String) : VariableScope :=
  (names.forM fun name => discard (intern name)).run ∅ |>.2

theorem intern_of_find?_eq_some {s : VariableScope} {name : String} {v : Variable}
    (h : s.find? name = some v) : intern name s = (v, s) := by
  simp only [intern, h]

theorem intern_of_find?_eq_none {s : VariableScope} {name : String} (h : s.find? name = none) :
    intern name s = (⟨s.size⟩, ⟨s.names ++ [name]⟩) := by
  simp only [intern, h]

end VariableScope

/-! ## 4. Both together -/

/-- What names mean inside one rule. -/
structure Vocabulary (τ : Type := SymbolTable) where
  symbols : τ
  scope : VariableScope
deriving DecidableEq

namespace Vocabulary

def initial : Vocabulary :=
  ⟨.initial, ∅⟩

variable {τ α : Type}

def onSymbols (x : StateM τ α) : StateM (Vocabulary τ) α := fun w =>
  ((x w.symbols).1, { w with symbols := (x w.symbols).2 })

def onScope (x : StateM VariableScope α) : StateM (Vocabulary τ) α := fun w =>
  ((x w.scope).1, { w with scope := (x w.scope).2 })

/-- The variable with a name, to which the sigil is added if it is missing. -/
def var (name : String) : StateM (Vocabulary τ) Variable :=
  onScope (VariableScope.intern
    (if isVariableName name then name else Variable.sigil.toString ++ name))

variable [Interning τ]

def atom (name : String) : StateM (Vocabulary τ) Atom :=
  onSymbols (Interning.atom name)

/-- The term with a name: a variable if the name has the sigil, else an atom. -/
def term (name : String) : StateM (Vocabulary τ) Term :=
  if isVariableName name then
    return .var (← onScope (VariableScope.intern name))
  else
    return .const (← atom name)

def tuple (names : List String) : StateM (Vocabulary τ) Tuple :=
  names.mapM term

end Vocabulary

end ForwardChaining
