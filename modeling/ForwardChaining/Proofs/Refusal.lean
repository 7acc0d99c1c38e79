import ForwardChaining.Proofs.Spelling

/-!
# Refusal — what a fact that is refused leaves behind

A fact that names a variable is refused, and the first variable among its names is reported. The names
before that have been read by then and stay entered. Nothing else of the domain changes, and nothing at
all when the same fact is refused again (`Domain.addFact_outcome`).
-/

namespace ForwardChaining

namespace Domain

variable {d : Domain} {names : List String}

/-! ## 1. The two outcomes -/

theorem addFact_eq_ok {f : Fact} {symbols : SymbolTable}
    (h : (SymbolTable.fact names).run d.symbols = (.ok f, symbols)) :
    addFact names d = (.ok (), { d with symbols := symbols, facts := d.facts ++ [f] }) := by
  have hfact : SymbolTable.fact names d.symbols = (.ok f, symbols) := h
  unfold addFact
  rw [hfact]

theorem addFact_eq_error {e : VariableInFact} {symbols : SymbolTable}
    (h : (SymbolTable.fact names).run d.symbols = (.error e, symbols)) :
    addFact names d = (.error e, { d with symbols := symbols }) := by
  have hfact : SymbolTable.fact names d.symbols = (.error e, symbols) := h
  unfold addFact
  rw [hfact]

theorem addFact_of_forall (h : ∀ name ∈ names, isVariableName name = false) (d : Domain) :
    ∃ f, (SymbolTable.fact names).run d.symbols = (.ok f, SymbolTable.enter names d.symbols) ∧
      addFact names d
        = (.ok (), { d with symbols := SymbolTable.enter names d.symbols, facts := d.facts ++ [f] }) := by
  obtain ⟨f, hf⟩ := SymbolTable.exists_run_fact h d.symbols
  exact ⟨f, hf, addFact_eq_ok hf⟩

theorem addFact_append {front : List String} {name : String}
    (hfront : ∀ n ∈ front, isVariableName n = false) (hname : isVariableName name = true)
    (rest : List String) (d : Domain) :
    addFact (front ++ name :: rest) d
      = (.error ⟨name⟩, { d with symbols := SymbolTable.enter front d.symbols }) :=
  addFact_eq_error (SymbolTable.run_fact_append hfront hname rest d.symbols)

/-- Where there is a variable among some names, they split at the first one. -/
theorem exists_first_variable (h : ∃ name ∈ names, isVariableName name = true) :
    ∃ front name rest, names = front ++ name :: rest ∧
      (∀ n ∈ front, isVariableName n = false) ∧ isVariableName name = true := by
  obtain ⟨name, hfirst⟩ := Option.isSome_iff_exists.1 (List.find?_isSome.2 h)
  obtain ⟨hname, front, rest, hsplit, hfront⟩ := List.find?_eq_some_iff_append.1 hfirst
  refine ⟨front, name, rest, hsplit, fun n hn => ?_, hname⟩
  exact (Bool.not_eq_eq_eq_not ..).1 (hfront n hn)

/-! ## 2. Repeated refusals -/

theorem run_fact_again (names : List String) (t : SymbolTable) :
    (SymbolTable.fact names).run ((SymbolTable.fact names).run t).2
      = (SymbolTable.fact names).run t := by
  have hagain := (stable_fact names ⟨t, ∅⟩).2 _ (le_refl _)
  have hresult := congrArg Prod.fst hagain
  have hsymbols := congrArg (fun p => p.2.symbols) hagain
  exact Prod.ext hresult hsymbols

/-- What was read in vain the first time is known the second time. -/
theorem addFact_again {e : VariableInFact} (h : (addFact names d).1 = .error e) :
    addFact names (addFact names d).2 = (.error e, (addFact names d).2) := by
  have hagain := run_fact_again names d.symbols
  cases hrun : (SymbolTable.fact names).run d.symbols with
  | mk result symbols =>
    rw [hrun] at hagain
    cases result with
    | ok f =>
      rw [addFact_eq_ok hrun] at h
      cases h
    | error e' =>
      rw [addFact_eq_error hrun] at h ⊢
      cases h
      exact addFact_eq_error hagain

/-! ## 3. Both outcomes -/

/-- Adding a fact fails exactly if there is a variable among its names. It then reports the first one and
leaves the domain as it was but for the names before that, which have been read in their order: all
symbols that were known keep their names, and a second attempt fails alike and changes nothing. Otherwise
one fact is appended, and it is printed as its names after any further edits. -/
theorem addFact_outcome (d : Domain) (names : List String) :
    let d' := (addFact names d).2
    ((∃ e, (addFact names d).1 = .error e) ↔ ∃ name ∈ names, isVariableName name = true) ∧
    (∀ e, (addFact names d).1 = .error e →
      (∃ front rest, names = front ++ e.name :: rest ∧
        (∀ name ∈ front, isVariableName name = false) ∧ isVariableName e.name = true ∧
        d' = { d with symbols := SymbolTable.enter front d.symbols }) ∧
      d'.initialFacts = d.initialFacts ∧
      (∀ s name, d.symbols.name? s = some name → d'.symbols.name? s = some name) ∧
      addFact names d' = (.error e, d')) ∧
    ((addFact names d).1 = .ok () → ∃ f,
      d' = { d with symbols := SymbolTable.enter names d.symbols, facts := d.facts ++ [f] } ∧
      ∀ edits : List Edit,
        (edits.foldl edit d').printer.fact f = "(" ++ " ".intercalate names ++ ")") := by
  intro d'
  by_cases hvariable : ∃ name ∈ names, isVariableName name = true
  · obtain ⟨front, name, rest, rfl, hfront, hname⟩ := exists_first_variable hvariable
    have hadd := addFact_append hfront hname rest d
    have hd' : d' = { d with symbols := SymbolTable.enter front d.symbols } := congrArg Prod.snd hadd
    have herror : (addFact (front ++ name :: rest) d).1 = .error ⟨name⟩ := congrArg Prod.fst hadd
    refine ⟨iff_of_true ⟨_, herror⟩ hvariable, fun e he => ?_, fun hok => ?_⟩
    · cases herror.symm.trans he
      refine ⟨⟨front, rest, rfl, hfront, hname, hd'⟩, ?_, fun s n hs => ?_, addFact_again he⟩
      · rw [hd']
        rfl
      · exact SymbolTable.name?_of_le (symbols_le_edit d (.addFact _)) hs
    · cases herror.symm.trans hok
  · have hnames : ∀ name ∈ names, isVariableName name = false := fun name hname =>
      Bool.eq_false_iff.2 fun h => hvariable ⟨name, hname, h⟩
    obtain ⟨f, hrun, hadd⟩ := addFact_of_forall hnames d
    have hok : (addFact names d).1 = .ok () := congrArg Prod.fst hadd
    have hd' : d' = { d with
        symbols := SymbolTable.enter names d.symbols, facts := d.facts ++ [f] } :=
      congrArg Prod.snd hadd
    have hnoerror : ∀ e, (addFact names d).1 ≠ .error e := by
      intro e he
      cases hok.symm.trans he
    refine ⟨iff_of_false (fun ⟨e, he⟩ => hnoerror e he) hvariable,
      fun e he => absurd he (hnoerror e), fun _ => ⟨f, hd', fun edits => ?_⟩⟩
    have hread : ((SymbolTable.fact names).run d.symbols).1 = .ok f := congrArg Prod.fst hrun
    have hgrown := (grown_edits d' edits).1
    refine SymbolTable.print_fact hread (le_trans ?_ hgrown) none
    rw [hrun, hd']

end Domain

end ForwardChaining
