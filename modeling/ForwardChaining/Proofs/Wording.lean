import ForwardChaining.Domain.Basic
import ForwardChaining.Proofs.Naming

/-!
# Wording — rules written with names are printed as they were written

Clauses have a text of their own, made of the names in them (`Clause.ruleText`). Reading clauses is
stable, and a name that has been read stands for a term that is printed by that name, at every later time.
So a rule that was added by clauses is printed as their text, whatever its domain is told afterwards
(`Domain.rule_wording`).
-/

namespace ForwardChaining

/-! ## 1. The text of clauses -/

namespace Expr

variable {α : Type}

/-- The text of an expression whose leaves have texts. -/
def wording (word : α → String) : Expr α → String
  | leaf x => word x
  | binary op left right =>
    "(" ++ op.text ++ " " ++ left.wording word ++ " " ++ right.wording word ++ ")"
  | not operand => "(not " ++ operand.wording word ++ ")"

end Expr

namespace Label

def isName : Label → Bool
  | name _ => true
  | term _ => false

/-- The name that a label was given by. A term that was known already was given by none. -/
def wording : Label → String
  | name n => n
  | term _ => ""

end Label

namespace Clause

mutual

/-- Whether a clause is written with names only. -/
def isNamed : Clause → Bool
  | .guard e => e.leaves.all Label.isName
  | .negation body => areNamed body
  | .condition _ | .conclusion _ | .comparison .. | .askVariable _ | .askTerm _ => true

def areNamed : List Clause → Bool
  | [] => true
  | c :: cs => c.isNamed && areNamed cs

end

/-- The names of a tuple between parentheses, with a space between any two. -/
def tupleText (names : List String) : String :=
  "(" ++ " ".intercalate names ++ ")"

mutual

/-- The text of a clause among the conditions, if it is a condition. -/
def conditionTexts : Clause → List String
  | .condition names => [tupleText names]
  | .negation body => ["(not" ++ String.join ((bodyTexts body).map (" " ++ ·)) ++ ")"]
  | .guard e => ["(if " ++ e.wording Label.wording ++ ")"]
  | .comparison op left right =>
    ["(if " ++ ("(" ++ op.text ++ " " ++ left ++ " " ++ right ++ ")") ++ ")"]
  | .conclusion _ | .askVariable _ | .askTerm _ => []

def bodyTexts : List Clause → List String
  | [] => []
  | c :: cs => c.conditionTexts ++ bodyTexts cs

end

/-- The text of a clause among the conclusions, if it is a conclusion. -/
def conclusionTexts : Clause → List String
  | .conclusion names => [tupleText names]
  | _ => []

/-- The text of a rule: each condition followed by a space, an arrow, and each conclusion after a
space. -/
def ruleText (clauses : List Clause) : String :=
  String.join ((bodyTexts clauses).map (· ++ " ")) ++ "=>"
    ++ String.join ((clauses.flatMap conclusionTexts).map (" " ++ ·))

end Clause

/-! ## 2. Readings of clauses -/

namespace Sequential

variable {P : (α : Type) → StateM Vocabulary α → Prop}

theorem expr (hP : Sequential P) {α β : Type} {f : α → StateM Vocabulary β} (hf : ∀ x, P β (f x))
    (e : Expr α) : P (Expr β) (e.mapM f) := by
  induction e with
  | leaf x => exact hP.map (hf x) Expr.leaf
  | binary op l r ihl ihr => exact hP.bind ihl fun l' => hP.map ihr (Expr.binary op l')
  | not e ih => exact hP.map ih Expr.not

mutual

theorem read (hP : Sequential P) (hterm : ∀ name, P Term (Vocabulary.term name))
    (hvar : ∀ name, P Variable (Vocabulary.var name)) : ∀ c : Clause, P Draft c.read
  | .condition names => by
    unfold Clause.read
    exact hP.bind (hP.mapM fun name _ => hterm name) fun t => hP.pure _
  | .conclusion names => by
    unfold Clause.read
    exact hP.bind (hP.mapM fun name _ => hterm name) fun t => hP.pure _
  | .negation body => by
    unfold Clause.read
    exact hP.bind (hP.readAll hterm hvar body) fun d => hP.pure _
  | .guard e => by
    unfold Clause.read
    refine hP.bind (hP.expr (fun label => ?_) e) fun e => hP.pure _
    cases label with
    | name n => exact hterm n
    | term t => exact hP.pure t
  | .comparison op left right => by
    unfold Clause.read
    exact hP.bind (hterm left) fun l => hP.bind (hterm right) fun r => hP.pure _
  | .askVariable name => by
    unfold Clause.read
    exact hP.bind (hvar name) fun v => hP.pure _
  | .askTerm name => by
    unfold Clause.read
    exact hP.bind (hterm name) fun t => hP.pure _

theorem readAll (hP : Sequential P) (hterm : ∀ name, P Term (Vocabulary.term name))
    (hvar : ∀ name, P Variable (Vocabulary.var name)) :
    ∀ cs : List Clause, P Draft (Clause.readAll cs)
  | [] => by
    unfold Clause.readAll
    exact hP.pure _
  | c :: cs => by
    unfold Clause.readAll
    exact hP.bind (hP.read hterm hvar c) fun d =>
      hP.bind (hP.readAll hterm hvar cs) fun e => hP.pure _

end

end Sequential

theorem stable_var (name : String) : Stable (Vocabulary.var name) :=
  stable_internVariable _

theorem stable_expr (e : Expr Label) : Stable (e.mapM Label.read) := by
  refine sequential_stable.expr (fun label => ?_) e
  cases label with
  | name n => exact stable_term n
  | term t => exact sequential_stable.pure t

theorem stable_readAll (cs : List Clause) : Stable (Clause.readAll cs) :=
  sequential_stable.readAll stable_term stable_var cs

/-! ## 3. Printing what has been read -/

theorem intercalate_cons_eq (sep x : String) (xs : List String) :
    sep.intercalate (x :: xs) = x ++ String.join (xs.map (sep ++ ·)) := by
  induction xs generalizing x with
  | nil => rw [String.intercalate_singleton, List.map_nil, String.join_nil, String.append_empty]
  | cons y xs ih =>
    rw [String.intercalate_cons_cons, ih, List.map_cons, String.join_cons, String.append_assoc,
      String.append_assoc]

theorem parenthesized_cons (x : String) (xs : List String) :
    parenthesized (x :: xs) = "(" ++ x ++ String.join (xs.map (" " ++ ·)) ++ ")" := by
  rw [parenthesized, intercalate_cons_eq, ← String.append_assoc]

theorem parenthesized_pair (x y : String) : parenthesized [x, y] = "(" ++ x ++ " " ++ y ++ ")" := by
  rw [parenthesized_cons]
  simp only [List.map_cons, List.map_nil, String.join_cons, String.join_nil, String.append_empty,
    ← String.append_assoc]

theorem parenthesized_triple (x y z : String) :
    parenthesized [x, y, z] = "(" ++ x ++ " " ++ y ++ " " ++ z ++ ")" := by
  rw [parenthesized_cons]
  simp only [List.map_cons, List.map_nil, String.join_cons, String.join_nil, String.append_empty,
    ← String.append_assoc]

namespace Printer

variable (p : Printer)

theorem arguments_map (body : List Condition) :
    p.arguments (body.map Argument.condition) = body.map p.condition := by
  induction body with
  | nil => rfl
  | cons c body ih => rw [List.map_cons, arguments, argument, ih, List.map_cons]

/-- The heads of negations and guards are printed by their names in every vocabulary. -/
theorem symbol_reserved {name : String} {n : Nat} (h : Symbol.reserved[n]? = some name) :
    p.symbol ⟨n⟩ = name := by
  rw [symbol, p.symbols.name?_reserved h]
  rfl

theorem condition_negation (body : List Condition) :
    p.condition (.negation body)
      = "(not" ++ String.join ((body.map p.condition).map (" " ++ ·)) ++ ")" := by
  have hnot : p.symbol .negation = "not" := p.symbol_reserved rfl
  rw [Condition.negation, condition, hnot, parenthesized_cons, arguments_map]
  rfl

theorem condition_guard (e : Expr Term) : p.condition (.guard e) = "(if " ++ p.expr e ++ ")" := by
  have hif : p.symbol .guard = "if" := p.symbol_reserved rfl
  have hargs : p.arguments [.expr e] = [p.expr e] := by
    rw [arguments, arguments, argument]
  rw [Condition.guard, condition, hif, hargs, parenthesized_pair]
  rfl

theorem expr_eq_wording (e : Expr Term) : p.expr e = e.wording p.term := by
  induction e with
  | leaf t => rw [expr, Expr.wording]
  | binary op l r ihl ihr => rw [expr, Expr.wording, parenthesized_triple, ihl, ihr]
  | not e ih =>
    rw [expr, Expr.wording, parenthesized_pair, ih]
    rfl

end Printer

namespace Vocabulary

variable {w w' : Vocabulary} {name : String} {names : List String} {t : Term}

/-- Prints with the names of a vocabulary. -/
def printer (w : Vocabulary) : Printer where
  symbols := w.symbols
  scope := some w.scope

/-- What a name stands for is printed by that name. -/
theorem Means.term_eq (h : w.Means name t) : w.printer.term t = name := by
  cases t with
  | var v =>
    have hname : w.scope.name? v = some name := VariableScope.name?_of_find? h
    simp only [Printer.term, Printer.var, printer, Option.bind_some, hname, Option.getD_some]
  | const a =>
    cases a with
    | symbol s =>
      have hname : w.symbols.name? s = some name := SymbolTable.find?_eq_some_iff.1 h
      simp only [Printer.term, Printer.atom, Printer.symbol, printer, hname, Option.getD_some]
    | integer i => exact h.symm

theorem map_term_eq {ts : Tuple} (h : List.Forall₂ w.Means names ts) :
    ts.map w.printer.term = names := by
  induction h with
  | nil => rfl
  | cons hm _ ih => rw [List.map_cons, hm.term_eq, ih]

theorem tuple_eq (h : (tuple names w).2 ≤ w') :
    w'.printer.tuple (tuple names w).1 = Clause.tupleText names := by
  rw [Printer.tuple, map_term_eq (means_tuple h)]
  rfl

theorem label_eq {l : Label} (hl : l.isName = true) (h : (l.read w).2 ≤ w') :
    w'.printer.term (l.read w).1 = l.wording := by
  cases l with
  | name n => exact (means_term h).term_eq
  | term t => cases hl

theorem expr_eq {e : Expr Label} (he : e.leaves.all Label.isName = true)
    (h : (e.mapM Label.read w).2 ≤ w') :
    w'.printer.expr (e.mapM Label.read w).1 = e.wording Label.wording := by
  rw [Printer.expr_eq_wording]
  induction e generalizing w with
  | leaf l =>
    rw [Expr.leaves, List.all_cons, Bool.and_eq_true] at he
    exact label_eq he.1 h
  | binary op l r ihl ihr =>
    rw [Expr.leaves, List.all_append, Bool.and_eq_true] at he
    have hrest := (stable_expr r (l.mapM Label.read w).2).1
    show "(" ++ op.text ++ " " ++ (l.mapM Label.read w).1.wording _ ++ " "
      ++ (r.mapM Label.read (l.mapM Label.read w).2).1.wording _ ++ ")" = _
    rw [ihl he.1 (le_trans hrest h), ihr he.2 h]
    rfl
  | not e ih =>
    show "(not " ++ (e.mapM Label.read w).1.wording _ ++ ")" = _
    rw [ih he h]
    rfl

end Vocabulary

namespace Clause

variable {w w' : Vocabulary}

mutual

/-- What a clause is read as is printed as the text of the clause, at every later time. -/
theorem read_wording (c : Clause) (hc : c.isNamed = true) (w : Vocabulary) (h : (c.read w).2 ≤ w') :
    (c.read w).1.conditions.map w'.printer.condition = c.conditionTexts ∧
      (c.read w).1.conclusions.map w'.printer.tuple = c.conclusionTexts := by
  cases c with
  | condition names =>
    unfold read at h ⊢
    exact ⟨congrArg (fun s => [s]) (Vocabulary.tuple_eq h), rfl⟩
  | conclusion names =>
    unfold read at h ⊢
    exact ⟨rfl, congrArg (fun s => [s]) (Vocabulary.tuple_eq h)⟩
  | negation body =>
    unfold read at h ⊢
    unfold isNamed at hc
    have ⟨hbody, _⟩ := readAll_wording body hc w h
    refine ⟨?_, rfl⟩
    show [w'.printer.condition (.negation (readAll body w).1.conditions)] = _
    rw [Printer.condition_negation, hbody, conditionTexts]
  | guard e =>
    unfold read at h ⊢
    unfold isNamed at hc
    refine ⟨?_, rfl⟩
    show [w'.printer.condition (.guard (e.mapM Label.read w).1)] = _
    rw [Printer.condition_guard, Vocabulary.expr_eq hc h, conditionTexts]
  | comparison op left right =>
    unfold read at h ⊢
    have hrest := (stable_term right (Vocabulary.term left w).2).1
    have hleft := (Vocabulary.means_term (le_trans hrest h)).term_eq
    have hright : w'.printer.term (Vocabulary.term right (Vocabulary.term left w).2).1 = right :=
      (Vocabulary.means_term h).term_eq
    refine ⟨?_, rfl⟩
    show [w'.printer.condition (.guard (.binary op (.leaf (Vocabulary.term left w).1)
      (.leaf (Vocabulary.term right (Vocabulary.term left w).2).1)))] = _
    rw [Printer.condition_guard, Printer.expr_eq_wording, Expr.wording, Expr.wording, Expr.wording,
      hleft, hright, conditionTexts]
  | askVariable name =>
    unfold read
    exact ⟨rfl, rfl⟩
  | askTerm name =>
    unfold read
    exact ⟨rfl, rfl⟩

theorem readAll_wording (cs : List Clause) (hcs : areNamed cs = true) (w : Vocabulary)
    (h : (readAll cs w).2 ≤ w') :
    (readAll cs w).1.conditions.map w'.printer.condition = bodyTexts cs ∧
      (readAll cs w).1.conclusions.map w'.printer.tuple = cs.flatMap conclusionTexts := by
  cases cs with
  | nil =>
    unfold readAll
    exact ⟨rfl, rfl⟩
  | cons c cs =>
    unfold readAll at h ⊢
    unfold areNamed at hcs
    have ⟨hc, hcs⟩ := Bool.and_eq_true_iff.1 hcs
    have hrest := (stable_readAll cs (c.read w).2).1
    have ⟨hfirst, hfirst'⟩ := read_wording c hc w (le_trans hrest h)
    have ⟨hothers, hothers'⟩ := readAll_wording cs hcs (c.read w).2 h
    show ((c.read w).1.conditions ++ (readAll cs (c.read w).2).1.conditions).map _ = _ ∧
      ((c.read w).1.conclusions ++ (readAll cs (c.read w).2).1.conclusions).map _ = _
    rw [List.map_append, List.map_append, hfirst, hfirst', hothers, hothers', List.flatMap_cons,
      bodyTexts]
    exact ⟨rfl, rfl⟩

end

end Clause

/-! ## 4. Rules of a domain -/

namespace Domain

/-- What a domain can be told. -/
inductive Edit where
  | internSymbol (name : String)
  | addFact (names : List String)
  | addRule (clauses : List Clause)
  | insertFact (f : Fact)
  | insertRule (r : Rule)
  | register (head : Symbol) (form : Form)

/-- The domain after an edit. A refused fact leaves the names before the variable behind. -/
def edit (d : Domain) : Edit → Domain
  | .internSymbol name => { d with symbols := (SymbolTable.intern name d.symbols).2 }
  | .addFact names => (addFact names d).2
  | .addRule clauses => (addRule clauses d).2
  | .insertFact f => d.insertFact f
  | .insertRule r => d.insertRule r
  | .register head form => d.register head form

variable {d : Domain}

/-- Whether it is refused or not, a fact changes no rule, and its names are all that is entered. -/
theorem addFact_cases (d : Domain) (names : List String) :
    (addFact names d).2.rules = d.rules ∧
      (addFact names d).2.symbols = ((SymbolTable.fact names).run d.symbols).2 := by
  unfold addFact
  cases hfact : SymbolTable.fact names d.symbols with
  | mk result symbols =>
    have hrun : (SymbolTable.fact names).run d.symbols = (result, symbols) := hfact
    rw [hrun]
    cases result with
    | error e => exact ⟨rfl, rfl⟩
    | ok f => exact ⟨rfl, rfl⟩

theorem symbols_le_edit (d : Domain) (e : Edit) : d.symbols ≤ (d.edit e).symbols := by
  cases e with
  | internSymbol name => exact d.symbols.le_intern name
  | addFact names =>
    show d.symbols ≤ (addFact names d).2.symbols
    rw [(d.addFact_cases names).2]
    exact (stable_fact names ⟨d.symbols, ∅⟩).1.1
  | addRule clauses => exact (stable_readAll clauses ⟨d.symbols, ∅⟩).1.1
  | insertFact f => exact le_refl d.symbols
  | insertRule r => exact le_refl d.symbols
  | register head form => exact le_refl d.symbols

theorem rules_isPrefix_edit (d : Domain) (e : Edit) : d.rules <+: (d.edit e).rules := by
  cases e with
  | addFact names =>
    have hrules : (addFact names d).2.rules = d.rules := (d.addFact_cases names).1
    exact hrules ▸ List.prefix_refl d.rules
  | addRule clauses => exact List.prefix_append _ _
  | insertRule r => exact List.prefix_append _ _
  | internSymbol name => exact List.prefix_refl _
  | insertFact f => exact List.prefix_refl _
  | register head form => exact List.prefix_refl _

/-- Edits enter names after those at hand and rules after those at hand. -/
theorem grown_edits (d : Domain) (edits : List Edit) :
    d.symbols ≤ (edits.foldl edit d).symbols ∧ d.rules <+: (edits.foldl edit d).rules := by
  induction edits generalizing d with
  | nil => exact ⟨le_refl d.symbols, List.prefix_refl d.rules⟩
  | cons e edits ih =>
    have ⟨hsymbols, hrules⟩ := ih (d.edit e)
    exact ⟨le_trans (d.symbols_le_edit e) hsymbols, (d.rules_isPrefix_edit e).trans hrules⟩

/-- A rule that is added by clauses with names is printed as the text of the clauses, and so it is after
any further edits of the domain. -/
theorem rule_wording (d : Domain) {clauses : List Clause} (h : Clause.areNamed clauses = true) :
    let d' := (addRule clauses d).2
    ∃ r, d'.rules = d.rules ++ [r] ∧ d'.printer.rule r = Clause.ruleText clauses ∧
      ∀ edits : List Edit,
        let later := edits.foldl edit d'
        later.rules[d.rules.length]? = some r ∧ later.printer.rule r = Clause.ruleText clauses := by
  intro d'
  let read := Clause.readAll clauses ⟨d.symbols, ∅⟩
  let r : Rule := ⟨read.1.conditions, read.1.conclusions, some read.2.scope⟩
  have hrules : d'.rules = d.rules ++ [r] := rfl
  -- the scope stays with the rule, and the symbols are those of the domain or more
  have htext : ∀ symbols : SymbolTable, d'.symbols ≤ symbols →
      (Printer.mk symbols none).rule r = Clause.ruleText clauses := by
    intro symbols hsymbols
    have hle : read.2 ≤ ⟨symbols, read.2.scope⟩ := ⟨hsymbols, le_refl _⟩
    have ⟨hconditions, hconclusions⟩ := Clause.readAll_wording clauses h ⟨d.symbols, ∅⟩ hle
    rw [Clause.ruleText, ← hconditions, ← hconclusions, List.map_map, List.map_map]
    rfl
  refine ⟨r, hrules, htext _ (le_refl _), fun edits => ?_⟩
  intro later
  have ⟨hsymbols, hprefix⟩ := grown_edits d' edits
  refine ⟨?_, htext _ hsymbols⟩
  obtain ⟨rest, hrest⟩ := hprefix
  rw [← hrest, hrules, List.append_assoc, List.getElem?_append_right (Nat.le_refl _), Nat.sub_self]
  rfl

/-- The clauses of a rule with names of all sorts: variables, integers and what looks like one, an empty
name, and a reserved one. A conclusion and questions stand where they have no text. -/
def oddClauses : List Clause :=
  [.condition ["number", "?x"],
   .negation
     [.condition ["number", "?y"], .conclusion ["lost", "?z"], .negation [.condition []],
      .comparison (.order .gt) "?y" "007"],
   .askVariable "z", .askTerm "late",
   .guard (.not (.binary (.equality .eq) (.leaf (.name "?x")) (.leaf (.name "-3")))),
   .conclusion ["max", "?x", "-3", ""], .conclusion ["not", "late"]]

/-- The symbols of the rule come after those of a fact, and no edit changes what is printed. -/
theorem rule_wording_oddClauses :
    let d : Domain := (addFact ["late", "7"] ∅).2
    let d' := (addRule oddClauses d).2
    let text := "(number ?x) (not (number ?y) (not ()) (if (> ?y 007))) (if (not (= ?x -3))) "
      ++ "=> (max ?x -3 ) (not late)"
    Clause.areNamed oddClauses = true ∧ Clause.ruleText oddClauses = text ∧
      ∃ r, d'.rules = [r] ∧ d'.printer.rule r = text ∧
        ∀ edits : List Edit,
          let later := edits.foldl edit d'
          later.rules[0]? = some r ∧ later.printer.rule r = text := by
  intro d d' text
  have hnamed : Clause.areNamed oddClauses = true := rfl
  have htext : Clause.ruleText oddClauses = text := by decide +kernel
  have hrule := rule_wording d hnamed
  rw [htext] at hrule
  exact ⟨hnamed, htext, hrule⟩

end Domain

end ForwardChaining
