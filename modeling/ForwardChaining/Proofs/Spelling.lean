import ForwardChaining.Proofs.Wording

/-!
# Spelling — names become atoms and are printed again

An atom that was read off a name is printed by that name, at every later time, so different names never
become the same atom. The other way, the text of an atom is read as that atom and enters nothing: every
integer has a text of its own, and so has a symbol unless its name spells an integer. Facts are read and
printed name by name (`Vocabulary.names_round_trip`).
-/

namespace ForwardChaining

/-! ## 1. Reading the names of a fact -/

namespace SymbolTable

/-- The table after some names have been read as atoms, one after the other. -/
def enter (names : List String) (t : SymbolTable) : SymbolTable :=
  names.foldl (fun t name => (atom name t).2) t

variable {names : List String}

theorem run_fact_cons_of_eq {name : String} {result : Except VariableInFact Fact}
    {t t' : SymbolTable} (h : isVariableName name = false)
    (hrest : (fact names).run (atom name t).2 = (result, t')) :
    (fact (name :: names)).run t = (result.map ((atom name t).1 :: ·), t') := by
  rw [Interning.run_fact_cons h]
  show (Except.map ((atom name t).1 :: ·) ((fact names).run (atom name t).2).1,
    ((fact names).run (atom name t).2).2) = _
  rw [hrest]

theorem exists_run_fact (h : ∀ name ∈ names, isVariableName name = false) (t : SymbolTable) :
    ∃ f, (fact names).run t = (.ok f, enter names t) := by
  induction names generalizing t with
  | nil => exact ⟨[], rfl⟩
  | cons name names ih =>
    have ⟨hname, hnames⟩ := List.forall_mem_cons.1 h
    obtain ⟨f, hf⟩ := ih hnames (atom name t).2
    exact ⟨(atom name t).1 :: f, run_fact_cons_of_eq hname hf⟩

/-- The names before the first variable are read, and those after it are not. -/
theorem run_fact_append {front : List String} {name : String}
    (hfront : ∀ n ∈ front, isVariableName n = false) (hname : isVariableName name = true)
    (rest : List String) (t : SymbolTable) :
    (fact (front ++ name :: rest)).run t = (.error ⟨name⟩, enter front t) := by
  induction front generalizing t with
  | nil =>
    rw [List.nil_append, Interning.run_fact_of_variable hname]
    rfl
  | cons n front ih =>
    have ⟨hn, hfront⟩ := List.forall_mem_cons.1 hfront
    exact run_fact_cons_of_eq hn (ih hfront (atom n t).2)

end SymbolTable

/-! ## 2. Texts of atoms and facts -/

theorem Printer.atom_symbol {p : Printer} {s : Symbol} {name : String}
    (h : p.symbols.name? s = some name) : p.atom (.symbol s) = name := by
  rw [atom, symbol, h, Option.getD_some]

namespace Vocabulary

variable {w w' : Vocabulary} {name : String} {names : List String}

/-- Whether an atom can be told by its text: a symbol needs a name, and one that spells no integer. -/
def Spells (w : Vocabulary) : Atom → Prop
  | .symbol s => ∃ name, w.symbols.name? s = some name ∧ ∀ i : Integer, name ≠ i.text
  | .integer _ => True

theorem print_atom (h : (atom name w).2 ≤ w') : w'.printer.atom (atom name w).1 = name :=
  (means_atom h).term_eq

/-- The text of an atom is read as that atom, and nothing is entered. -/
theorem atom_print {a : Atom} (h : w.Spells a) : atom (w.printer.atom a) w = (a, w) := by
  cases a with
  | integer i =>
    have htext : Integer.ofText? i.text = some i := (Integer.ofText?_eq_some_iff i.text i).2 rfl
    show atom i.text w = (.integer i, w)
    unfold atom Interning.atom
    rw [htext]
    rfl
  | symbol s =>
    obtain ⟨name, hname, hinteger⟩ := h
    have hprint : w.printer.atom (.symbol s) = name := Printer.atom_symbol hname
    have htext : Integer.ofText? name = none := (Integer.ofText?_eq_none_iff name).2 hinteger
    have hfind : w.symbols.find? name = some s := SymbolTable.find?_eq_some_iff.2 hname
    rw [hprint]
    unfold atom Interning.atom
    rw [htext]
    show (Atom.symbol (onSymbols (SymbolTable.intern name) w).1,
      (onSymbols (SymbolTable.intern name) w).2) = _
    simp only [onSymbols, SymbolTable.intern_of_find?_eq_some hfind]

/-- Different names are read as different atoms, also where one of them is read later. -/
theorem atom_ne_atom {name' : String} (hname : name ≠ name') (h : (atom name w).2 ≤ w') :
    (atom name w).1 ≠ (atom name' w').1 := by
  intro heq
  have hle : w' ≤ (atom name' w').2 := (stable_atom name' w').1
  have hfirst : (atom name' w').2.printer.atom (atom name w).1 = name := print_atom (le_trans h hle)
  rw [heq, print_atom (le_refl _)] at hfirst
  exact hname hfirst.symm

end Vocabulary

/-- A fact that was read is printed as its names, whatever is entered later. -/
theorem SymbolTable.print_fact {names : List String} {t t' : SymbolTable} {f : Fact}
    (hf : ((fact names).run t).1 = .ok f) (h : ((fact names).run t).2 ≤ t')
    (scope : Option VariableScope) :
    (Printer.mk t' scope).fact f = "(" ++ " ".intercalate names ++ ")" := by
  let w : Vocabulary := ⟨t, ∅⟩
  let w' : Vocabulary := ⟨t', ∅⟩
  have hread : (Vocabulary.onSymbols (fact names).run w).1 = .ok f := hf
  have hmeans : List.Forall₂ w'.Means names (f.map .const) :=
    Vocabulary.means_fact hread ⟨h, le_refl _⟩
  have htexts : f.map w'.printer.atom = names := by
    rw [← Vocabulary.map_term_eq hmeans, List.map_map]
    rfl
  show parenthesized (f.map w'.printer.atom) = _
  rw [htexts, parenthesized]

/-! ## 3. After any calls -/

namespace Vocabulary

/-- After any calls: a name is printed again for the atom it is read as, at once and after further
calls. The text of an atom that can be told by it is read as the atom and enters nothing. Different
names are read as different atoms, and names without a variable as a fact that is printed as these
names between parentheses. -/
theorem names_round_trip (calls : List Call) :
    let w := after calls
    (∀ name later,
      (after (calls ++ .atom name :: later)).printer.atom (atom name w).1 = name) ∧
    (∀ a, w.Spells a → atom (w.printer.atom a) w = (a, w)) ∧
    (∀ name name' later, name ≠ name' →
      (atom name w).1 ≠ (atom name' (after (calls ++ .atom name :: later))).1) ∧
    ∀ names, (∀ name ∈ names, isVariableName name = false) →
      ∃ f, (onSymbols (SymbolTable.fact names).run w).1 = .ok f ∧
        ∀ later, (after (calls ++ .fact names :: later)).printer.fact f
          = "(" ++ " ".intercalate names ++ ")" := by
  intro w
  refine ⟨fun name later => print_atom (answer_le_after calls (.atom name) later),
    fun a => atom_print, fun name name' later hname =>
      atom_ne_atom hname (answer_le_after calls (.atom name) later), fun names hnames => ?_⟩
  obtain ⟨f, hf⟩ := SymbolTable.exists_run_fact hnames w.symbols
  have hok : ((SymbolTable.fact names).run w.symbols).1 = .ok f := congrArg Prod.fst hf
  refine ⟨f, hok, fun later => ?_⟩
  exact SymbolTable.print_fact hok (answer_le_after calls (.fact names) later).1 _

end Vocabulary

end ForwardChaining
