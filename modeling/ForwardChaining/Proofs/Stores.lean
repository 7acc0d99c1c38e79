import ForwardChaining.Proofs.Naming

/-!
# Stores — the two parts of a symbol store stay inverse

Names are read into a bare store as they are read into a table, but nothing in a store says that its parts
agree. Each call keeps them inverse, a refused fact included, because each is a sequence of single names that
are interned (`Vocabulary.inverse_answer`), so they are inverse after any calls. A table is such a store with
the proofs, which no reading looks at (`Erases`). What is known of calls on tables therefore holds of the same
calls on stores (`Vocabulary.calls_stable`).
-/

namespace ForwardChaining

/-! ## 1. Scopes without repetitions -/

namespace VariableScope

variable {s : VariableScope} {name : String} {v : Variable}

theorem find?_eq_some_iff (hs : s.names.Nodup) : s.find? name = some v ↔ s.name? v = some name := by
  refine ⟨name?_of_find?, fun h => ?_⟩
  obtain ⟨hlt, hname⟩ := List.getElem?_eq_some_iff.1 h
  refine Option.map_eq_some_iff.2 ⟨v.ordinal, List.idxOf?_eq_some_iff.2 ⟨hlt, hname, fun j hj hjn => ?_⟩, rfl⟩
  exact Nat.ne_of_lt hj ((List.getElem_inj hs).1 (hjn.trans hname.symm))

theorem exists_name?_iff : (∃ name, s.name? v = some name) ↔ v.ordinal < s.size := by
  simp only [name?, size, List.getElem?_eq_some_iff, exists_comm, exists_eq', exists_prop, and_true]

/-- A name is entered only if it is not found. -/
theorem nodup_intern (hs : s.names.Nodup) (name : String) : (intern name s).2.names.Nodup := by
  cases h : s.find? name with
  | some v =>
    rw [intern_of_find?_eq_some h]
    exact hs
  | none =>
    have hnew : name ∉ s.names := List.idxOf?_eq_none_iff.1 (Option.map_eq_none_iff.1 h)
    rw [intern_of_find?_eq_none h]
    refine List.nodup_append.2 ⟨hs, List.pairwise_singleton _ name, fun x hx y hy he => hnew ?_⟩
    rw [← List.mem_singleton.1 hy, ← he]
    exact hx

end VariableScope

/-! ## 2. What every call keeps -/

namespace Vocabulary

variable {α : Type}

/-- Whether names and symbols, and names and variables, are inverse to each other. -/
def Inverse (w : Vocabulary SymbolStore) : Prop :=
  w.symbols.Inverse ∧ w.scope.names.Nodup

/-- A reading after which the parts of a vocabulary are inverse if they were so before. -/
def KeepsInverse (x : StateM (Vocabulary SymbolStore) α) : Prop :=
  ∀ w, w.Inverse → (x w).2.Inverse

theorem sequential_keepsInverse : Sequential @KeepsInverse where
  pure _ _ h := h
  bind hx hf w h := hf _ _ (hx w h)

theorem keepsInverse_internSymbol (name : String) :
    KeepsInverse (onSymbols (Interning.intern name)) :=
  fun _ h => ⟨h.1.intern name, h.2⟩

theorem keepsInverse_internVariable (name : String) :
    KeepsInverse (onScope (VariableScope.intern name)) :=
  fun _ h => ⟨h.1, VariableScope.nodup_intern h.2 name⟩

theorem inverse_answer (c : Call) : KeepsInverse c.answer := by
  have hP := sequential_keepsInverse
  cases c with
  | internSymbol name => exact hP.map (keepsInverse_internSymbol name) _
  | internVariable name => exact hP.map (keepsInverse_internVariable name) _
  | atom name => exact hP.map (hP.atom fun _ => keepsInverse_internSymbol name) _
  | term name =>
    exact hP.map (hP.term (fun _ => keepsInverse_internVariable name)
      fun _ _ => keepsInverse_internSymbol name) _
  | tuple names =>
    exact hP.map (hP.tuple (fun name _ _ => keepsInverse_internVariable name)
      fun name _ _ _ => keepsInverse_internSymbol name) _
  | fact names => exact hP.map (hP.fact fun name _ _ _ => keepsInverse_internSymbol name) _

/-- The vocabulary after some calls, with the symbols in a bare store. -/
def storeAfter (calls : List Call) : Vocabulary SymbolStore :=
  calls.foldl (fun w c => (c.answer w).2) ⟨.initial, ∅⟩

theorem inverse_foldl (calls : List Call) {w : Vocabulary SymbolStore} (h : w.Inverse) :
    (calls.foldl (fun w c => (c.answer w).2) w).Inverse := by
  induction calls generalizing w with
  | nil => exact h
  | cons c calls ih => exact ih (inverse_answer c w h)

theorem inverse_storeAfter (calls : List Call) : (storeAfter calls).Inverse :=
  inverse_foldl calls ⟨SymbolStore.inverse_initial, List.nodup_nil⟩

end Vocabulary

/-! ## 3. Tables without their proofs -/

namespace Vocabulary

/-- The vocabulary with the store of its table. -/
def bare (w : Vocabulary) : Vocabulary SymbolStore :=
  ⟨w.symbols.store, w.scope⟩

end Vocabulary

section Erases

variable {α β : Type} {x : StateM Vocabulary α} {y : StateM (Vocabulary SymbolStore) α} {name : String}
  {names : List String}

/-- Two readings that answer the same and leave the same names behind, one in tables and one in stores. -/
def Erases (x : StateM Vocabulary α) (y : StateM (Vocabulary SymbolStore) α) : Prop :=
  ∀ w : Vocabulary, y w.bare = ((x w).1, (x w).2.bare)

theorem erases_pure (a : α) : Erases (pure a) (pure a) :=
  fun _ => rfl

theorem Erases.bind {f : α → StateM Vocabulary β} {g : α → StateM (Vocabulary SymbolStore) β}
    (hx : Erases x y) (hf : ∀ a, Erases (f a) (g a)) : Erases (x >>= f) (y >>= g) := by
  intro w
  show g (y w.bare).1 (y w.bare).2 = _
  rw [hx w]
  exact hf _ _

theorem Erases.map (hx : Erases x y) (f : α → β) : Erases (f <$> x) (f <$> y) :=
  hx.bind fun a => erases_pure (f a)

theorem Erases.mapM {f : β → StateM Vocabulary α} {g : β → StateM (Vocabulary SymbolStore) α}
    (h : ∀ b, Erases (f b) (g b)) (l : List β) : Erases (l.mapM f) (l.mapM g) := by
  induction l with
  | nil => exact erases_pure []
  | cons b l ih =>
    rw [List.mapM_cons, List.mapM_cons]
    exact (h b).bind fun a => ih.bind fun as => erases_pure (a :: as)

theorem erases_internSymbol (name : String) :
    Erases (Vocabulary.onSymbols (Interning.intern name)) (Vocabulary.onSymbols (Interning.intern name)) :=
  fun _ => rfl

theorem erases_internVariable (name : String) :
    Erases (Vocabulary.onScope (VariableScope.intern name))
      (Vocabulary.onScope (VariableScope.intern name)) :=
  fun _ => rfl

theorem erases_atom (name : String) : Erases (Vocabulary.atom name) (Vocabulary.atom name) := by
  unfold Vocabulary.atom Interning.atom
  cases Integer.ofText? name with
  | some i => exact erases_pure (Atom.integer i)
  | none => exact (erases_internSymbol name).map Atom.symbol

theorem erases_term (name : String) : Erases (Vocabulary.term name) (Vocabulary.term name) := by
  unfold Vocabulary.term
  cases isVariableName name with
  | true => exact (erases_internVariable name).map Term.var
  | false => exact (erases_atom name).map Term.const

theorem erases_fact (names : List String) :
    Erases (Vocabulary.onSymbols (Interning.fact names).run)
      (Vocabulary.onSymbols (Interning.fact names).run) := by
  induction names with
  | nil => exact erases_pure (Except.ok [])
  | cons name names ih =>
    cases hname : isVariableName name with
    | true =>
      rw [Interning.run_fact_of_variable hname, Interning.run_fact_of_variable hname]
      exact erases_pure (Except.error (VariableInFact.mk name))
    | false =>
      rw [Interning.run_fact_cons hname, Interning.run_fact_cons hname, Vocabulary.onSymbols_bind,
        Vocabulary.onSymbols_bind]
      exact (erases_atom name).bind fun a => ih.map (Except.map (a :: ·))

end Erases

namespace Vocabulary

theorem erases_answer (c : Call) : Erases c.answer c.answer := by
  cases c with
  | internSymbol name => exact (erases_internSymbol name).map _
  | internVariable name => exact (erases_internVariable name).map _
  | atom name => exact (erases_atom name).map _
  | term name => exact (erases_term name).map _
  | tuple names => exact (Erases.mapM erases_term names).map _
  | fact names => exact (erases_fact names).map _

theorem foldl_bare (calls : List Call) (w : Vocabulary) :
    calls.foldl (fun w c => (c.answer w).2) w.bare = (calls.foldl (fun w c => (c.answer w).2) w).bare := by
  induction calls generalizing w with
  | nil => rfl
  | cons c calls ih =>
    rw [List.foldl_cons, List.foldl_cons, erases_answer c w]
    exact ih _

theorem storeAfter_eq (calls : List Call) : storeAfter calls = (after calls).bare :=
  foldl_bare calls initial

/-! ## 4. After any calls -/

/-- A call keeps names and symbols, which a bare store has in two parts, inverse to each other, and so it does
with names and variables. After any calls, failing ones included, both are numbered without gaps, a name has
one ordinal and an ordinal one name, which the list of the names alone tells, `not` and `if` are where they were
at the start, and tables hold the same as stores. Whatever is asked next: a new symbol name is no spelling of
an integer and no variable, unless it was entered as such; and however the calls go on, the same question gets
the same answer and enters nothing, the terms it was answered with are what its names stand for, and all that
was found before is found. -/
theorem calls_stable (calls : List Call) :
    let w := storeAfter calls
    (∀ name s, w.symbols.find? name = some s ↔ w.symbols.name? s = some name) ∧
    (∀ name, w.symbols.find? name = (w.symbols.names.idxOf? name).map Symbol.mk) ∧
    (∀ s : Symbol, (∃ name, w.symbols.name? s = some name) ↔ s.ordinal < w.symbols.size) ∧
    w.symbols.find? "not" = some ⟨0⟩ ∧ w.symbols.find? "if" = some ⟨1⟩ ∧
    (∀ name v, w.scope.find? name = some v ↔ w.scope.name? v = some name) ∧
    (∀ v : Variable, (∃ name, w.scope.name? v = some name) ↔ v.ordinal < w.scope.size) ∧
    ((after calls).symbols.store = w.symbols ∧ (after calls).scope = w.scope) ∧
    ∀ c : Call,
      (∀ u : Vocabulary SymbolStore, u.Inverse → (c.answer u).2.Inverse) ∧
      (∀ name ∈ (c.answer w).2.symbols.names, name ∉ w.symbols.names →
        c = .internSymbol name ∨
          (∀ i : Integer, name ≠ i.text) ∧ (c = .atom name ∨ isVariableName name = false)) ∧
      ∀ later,
        let w' := storeAfter (calls ++ c :: later)
        c.answer w' = ((c.answer w).1, w') ∧
        (∀ ts, (c.answer w).1.terms? = some ts → List.Forall₂ w'.Means c.names ts) ∧
        (∀ name s, w.symbols.find? name = some s → w'.symbols.find? name = some s) ∧
        ∀ name v, w.scope.find? name = some v → w'.scope.find? name = some v := by
  intro w
  have hw : w = (after calls).bare := storeAfter_eq calls
  have hinverse : w.Inverse := inverse_storeAfter calls
  have hreserved (name : String) (n : Nat) (h : Symbol.reserved[n]? = some name) :
      w.symbols.find? name = some ⟨n⟩ := by
    rw [hw]
    exact SymbolTable.find?_eq_some_iff.2 ((after calls).symbols.name?_reserved h)
  refine ⟨hinverse.1, hinverse.1.find?_eq_idxOf?, fun s => SymbolStore.exists_name?_iff,
    hreserved "not" 0 rfl, hreserved "if" 1 rfl,
    fun name v => VariableScope.find?_eq_some_iff hinverse.2, fun v => VariableScope.exists_name?_iff,
    ⟨congrArg symbols hw.symm, congrArg scope hw.symm⟩, fun c => ⟨inverse_answer c, ?_⟩⟩
  rw [hw, erases_answer c]
  refine ⟨fun name hname hnew => (enters_answer c _ name hname).resolve_left hnew, fun later => ?_⟩
  intro w'
  have hw' : w' = (after (calls ++ c :: later)).bare := storeAfter_eq _
  have hle := answer_le_after calls c later
  have hle' : after calls ≤ after (calls ++ c :: later) := le_trans (stable_answer c _).1 hle
  rw [hw', erases_answer c, (stable_answer c _).2 _ hle]
  exact ⟨rfl, fun ts hts => means_answer hts hle, fun name s => SymbolTable.find?_of_le hle'.1,
    fun name v => VariableScope.find?_of_le hle'.2⟩

end Vocabulary

end ForwardChaining
