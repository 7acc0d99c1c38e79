import ForwardChaining.Proofs.Failure
import ForwardChaining.Vocabulary.Basic
import Mathlib.Order.Basic

/-!
# Naming — what a name means it means from then on

Tables and scopes grow at their end, so an answer about a name stays true. A reading of names is stable: once
it has been made it answers the same at every later time and enters nothing more. What holds of entering a
single name and is kept by sequencing holds of every reading (`Sequential.term`, `Sequential.tuple`,
`Sequential.fact`), which gives both the stability of the readings and the names that they enter. After any
calls the terms that were answered are what their names stand for (`Vocabulary.means_answer`).
-/

namespace ForwardChaining

/-! ## 1. Tables and scopes that have grown -/

theorem getElem?_of_isPrefix {α : Type} {l l' : List α} {n : Nat} {x : α} (h : l <+: l')
    (hn : l[n]? = some x) : l'[n]? = some x := by
  obtain ⟨rest, rfl⟩ := h
  rw [List.getElem?_append_left (List.getElem?_eq_some_iff.1 hn).1, hn]

namespace SymbolTable

variable {t u : SymbolTable} {name : String} {s : Symbol}

/-- A table comes before another if its names are the first names of the other. -/
instance : Preorder SymbolTable where
  le t u := t.names <+: u.names
  le_refl t := List.prefix_refl t.names
  le_trans _ _ _ := List.IsPrefix.trans

theorem find?_eq_some_iff : t.find? name = some s ↔ t.name? s = some name :=
  t.inverse name s

theorem name?_of_le (h : t ≤ u) (hs : t.name? s = some name) : u.name? s = some name :=
  getElem?_of_isPrefix h hs

theorem find?_of_le (h : t ≤ u) (hs : t.find? name = some s) : u.find? name = some s :=
  find?_eq_some_iff.2 (name?_of_le h (find?_eq_some_iff.1 hs))

/-- The reserved names stand at the front of every table. -/
theorem name?_reserved (t : SymbolTable) {n : Nat} (h : Symbol.reserved[n]? = some name) :
    t.name? ⟨n⟩ = some name :=
  getElem?_of_isPrefix t.reserved_le h

theorem le_intern (t : SymbolTable) (name : String) : t ≤ (intern name t).2 :=
  t.store.names_isPrefix_intern name

theorem intern_of_find?_eq_some (h : t.find? name = some s) : intern name t = (s, t) := by
  have hstore : t.store.intern name = (s, t.store) := SymbolStore.intern_of_find?_eq_some h
  simp only [intern, hstore]

theorem find?_intern (t : SymbolTable) (name : String) :
    (intern name t).2.find? name = some (intern name t).1 :=
  (t.store.find?_intern name name).trans (if_pos rfl)

end SymbolTable

namespace VariableScope

variable {s u : VariableScope} {name : String} {v : Variable}

/-- A scope comes before another if its names are the first names of the other. -/
instance : Preorder VariableScope where
  le s u := s.names <+: u.names
  le_refl s := List.prefix_refl s.names
  le_trans _ _ _ := List.IsPrefix.trans

theorem name?_of_find? (h : s.find? name = some v) : s.name? v = some name := by
  obtain ⟨n, hn, rfl⟩ := Option.map_eq_some_iff.1 h
  obtain ⟨hlt, hname, _⟩ := List.idxOf?_eq_some_iff.1 hn
  exact List.getElem?_eq_some_iff.2 ⟨hlt, hname⟩

/-- A variable is looked for from the front, and the front of a scope does not change. -/
theorem find?_of_le (h : s ≤ u) (hv : s.find? name = some v) : u.find? name = some v := by
  obtain ⟨n, hn, rfl⟩ := Option.map_eq_some_iff.1 hv
  obtain ⟨rest, hrest⟩ := h
  have happend : u.names.idxOf? name = some n := by
    rw [← hrest, List.idxOf?, List.findIdx?_append]
    exact congrArg (Option.or · _) hn
  rw [find?, happend, Option.map_some]

theorem le_intern (s : VariableScope) (name : String) : s ≤ (intern name s).2 := by
  cases h : s.find? name with
  | some v => exact ⟨[], by rw [List.append_nil, intern_of_find?_eq_some h]⟩
  | none => exact ⟨[name], by rw [intern_of_find?_eq_none h]⟩

theorem find?_intern (s : VariableScope) (name : String) :
    (intern name s).2.find? name = some (intern name s).1 := by
  cases h : s.find? name with
  | some v => rw [intern_of_find?_eq_some h, h]
  | none =>
    have hn : s.names.findIdx? (· == name) = none := Option.map_eq_none_iff.1 h
    rw [intern_of_find?_eq_none h, find?, List.idxOf?, List.findIdx?_append, hn, List.findIdx?_singleton,
      beq_self_eq_true]
    simp only [if_true, Option.none_or, Option.map_some, Nat.zero_add, size]

end VariableScope

namespace Vocabulary

/-- A vocabulary comes before another if both its parts do. -/
instance : Preorder Vocabulary where
  le w w' := w.symbols ≤ w'.symbols ∧ w.scope ≤ w'.scope
  le_refl w := ⟨le_refl w.symbols, le_refl w.scope⟩
  le_trans _ _ _ h h' := ⟨le_trans h.1 h'.1, le_trans h.2 h'.2⟩

end Vocabulary

/-! ## 2. Readings -/

section Facts

variable {τ : Type} [Interning τ] {name : String}

theorem Interning.run_fact_of_variable (h : isVariableName name = true) (names : List String) :
    (fact (name :: names) : ExceptT VariableInFact (StateM τ) Fact).run = pure (Except.error ⟨name⟩) := by
  unfold fact constant
  rw [List.mapM_cons, if_pos h]
  rfl

theorem Interning.run_fact_cons (h : isVariableName name = false) (names : List String) :
    (fact (name :: names) : ExceptT VariableInFact (StateM τ) Fact).run
      = atom name >>= fun a => Except.map (a :: ·) <$> (fact names).run := by
  have hconstant : (constant name : ExceptT VariableInFact (StateM τ) Atom) = ExceptT.lift (atom name) := by
    unfold constant
    simp only [h]
    rfl
  unfold fact
  rw [List.mapM_cons, hconstant]
  simp only [ExceptT.run_bind, ExceptT.run_lift, ExceptT.run_pure, map_eq_pure_bind, bind_assoc,
    pure_bind]
  -- an error of the rest is the error of the whole
  refine bind_congr fun a => bind_congr fun result => ?_
  cases result with
  | error e => rfl
  | ok f => rfl

end Facts

namespace Vocabulary

variable {τ α β : Type}

theorem onSymbols_bind (x : StateM τ α) (f : α → StateM τ β) :
    onSymbols (x >>= f) = onSymbols x >>= fun a => onSymbols (f a) := rfl

end Vocabulary

/-- A property of readings that is kept by sequencing. -/
structure Sequential {τ : Type} (P : (α : Type) → StateM (Vocabulary τ) α → Prop) : Prop where
  pure : ∀ {α : Type} (a : α), P α (pure a)
  bind : ∀ {α β : Type} {x : StateM (Vocabulary τ) α} {f : α → StateM (Vocabulary τ) β},
    P α x → (∀ a, P β (f a)) → P β (x >>= f)

namespace Sequential

variable {τ : Type} {P : (α : Type) → StateM (Vocabulary τ) α → Prop} {α β : Type} {name : String}
  {names : List String}

theorem map (hP : Sequential P) {x : StateM (Vocabulary τ) α} (hx : P α x) (f : α → β) :
    P β (f <$> x) :=
  hP.bind hx fun a => hP.pure (f a)

theorem mapM (hP : Sequential P) {f : β → StateM (Vocabulary τ) α} {l : List β}
    (h : ∀ x ∈ l, P α (f x)) : P (List α) (l.mapM f) := by
  induction l with
  | nil => exact hP.pure []
  | cons x l ih =>
    have ⟨hx, hl⟩ := List.forall_mem_cons.1 h
    rw [List.mapM_cons]
    exact hP.bind hx fun a => hP.bind (ih hl) fun as => hP.pure (a :: as)

variable [Interning τ]

/-- A symbol is entered only for a name that does not spell an integer. -/
theorem atom (hP : Sequential P)
    (h : (∀ i : Integer, name ≠ i.text) → P Symbol (Vocabulary.onSymbols (Interning.intern name))) :
    P Atom (Vocabulary.atom name) := by
  unfold Vocabulary.atom Interning.atom
  cases hi : Integer.ofText? name with
  | some i => exact hP.pure (Atom.integer i)
  | none =>
    have hname : ∀ i : Integer, name ≠ i.text := (Integer.ofText?_eq_none_iff name).1 hi
    exact hP.map (h hname) Atom.symbol

theorem term (hP : Sequential P)
    (hvariable : isVariableName name = true →
      P Variable (Vocabulary.onScope (VariableScope.intern name)))
    (hsymbol : isVariableName name = false → (∀ i : Integer, name ≠ i.text) →
      P Symbol (Vocabulary.onSymbols (Interning.intern name))) :
    P Term (Vocabulary.term name) := by
  unfold Vocabulary.term
  cases hname : isVariableName name with
  | true => exact hP.map (hvariable hname) Term.var
  | false => exact hP.map (hP.atom (hsymbol hname)) Term.const

theorem tuple (hP : Sequential P)
    (hvariable : ∀ name ∈ names, isVariableName name = true →
      P Variable (Vocabulary.onScope (VariableScope.intern name)))
    (hsymbol : ∀ name ∈ names, isVariableName name = false → (∀ i : Integer, name ≠ i.text) →
      P Symbol (Vocabulary.onSymbols (Interning.intern name))) :
    P Tuple (Vocabulary.tuple names) :=
  hP.mapM fun name hname => hP.term (hvariable name hname) (hsymbol name hname)

/-- A fact is read up to the first variable. The names before that are read even so. -/
theorem fact (hP : Sequential P)
    (hsymbol : ∀ name ∈ names, isVariableName name = false → (∀ i : Integer, name ≠ i.text) →
      P Symbol (Vocabulary.onSymbols (Interning.intern name))) :
    P (Except VariableInFact Fact) (Vocabulary.onSymbols (Interning.fact names).run) := by
  induction names with
  | nil => exact hP.pure (Except.ok [])
  | cons name names ih =>
    have ⟨hname, hnames⟩ := List.forall_mem_cons.1 hsymbol
    cases hvariable : isVariableName name with
    | true =>
      rw [Interning.run_fact_of_variable hvariable]
      exact hP.pure (Except.error (VariableInFact.mk name))
    | false =>
      rw [Interning.run_fact_cons hvariable, Vocabulary.onSymbols_bind]
      exact hP.bind (hP.atom (hname hvariable)) fun a => hP.map (ih hnames) (Except.map (a :: ·))

end Sequential

/-! ## 3. Readings that only add -/

section Stable

variable {α : Type} {names : List String} {name : String}

/-- A reading that only adds to the tables and that, made once, answers the same at every later time and
adds nothing more. -/
def Stable (x : StateM Vocabulary α) : Prop :=
  ∀ w, w ≤ (x w).2 ∧ ∀ w', (x w).2 ≤ w' → x w' = ((x w).1, w')

theorem sequential_stable : Sequential @Stable where
  pure _ w := ⟨le_refl w, fun _ _ => rfl⟩
  bind {α β x f} hx hf w := by
    have ⟨hle, hagain⟩ := hx w
    have ⟨hle', hagain'⟩ := hf (x w).1 (x w).2
    refine ⟨le_trans hle hle', fun w' hw' => ?_⟩
    show f (x w').1 (x w').2 = _
    -- the later time is later than both parts
    rw [hagain w' (le_trans hle' hw')]
    exact hagain' w' hw'

theorem stable_internSymbol (name : String) :
    Stable (Vocabulary.onSymbols (SymbolTable.intern name)) := by
  intro w
  refine ⟨⟨w.symbols.le_intern name, le_refl _⟩, fun w' h => ?_⟩
  have hfind := SymbolTable.find?_of_le h.1 (w.symbols.find?_intern name)
  have hintern := SymbolTable.intern_of_find?_eq_some hfind
  simp only [Vocabulary.onSymbols, hintern]

theorem stable_internVariable (name : String) :
    Stable (Vocabulary.onScope (VariableScope.intern name)) := by
  intro w
  refine ⟨⟨le_refl _, w.scope.le_intern name⟩, fun w' h => ?_⟩
  have hfind := VariableScope.find?_of_le h.2 (w.scope.find?_intern name)
  have hintern := VariableScope.intern_of_find?_eq_some hfind
  simp only [Vocabulary.onScope, hintern]

theorem stable_atom (name : String) : Stable (Vocabulary.atom name) :=
  sequential_stable.atom fun _ => stable_internSymbol name

theorem stable_term (name : String) : Stable (Vocabulary.term name) :=
  sequential_stable.term (fun _ => stable_internVariable name) fun _ _ => stable_internSymbol name

theorem stable_tuple (names : List String) : Stable (Vocabulary.tuple names) :=
  sequential_stable.tuple (fun name _ _ => stable_internVariable name)
    fun name _ _ _ => stable_internSymbol name

theorem stable_fact (names : List String) :
    Stable (Vocabulary.onSymbols (SymbolTable.fact names).run) :=
  sequential_stable.fact fun name _ _ _ => stable_internSymbol name

/-- A reading that enters no symbol names but those with the property `p`. -/
def Enters (p : String → Prop) (x : StateM Vocabulary α) : Prop :=
  ∀ w, ∀ name ∈ (x w).2.symbols.names, name ∈ w.symbols.names ∨ p name

theorem sequential_enters (p : String → Prop) : Sequential fun _ => Enters p where
  pure _ _ _ h := Or.inl h
  bind {α β x f} hx hf w name h := by
    rcases hf (x w).1 (x w).2 name h with h | h
    · exact hx w name h
    · exact Or.inr h

theorem enters_internSymbol {p : String → Prop} (h : p name) :
    Enters p (Vocabulary.onSymbols (SymbolTable.intern name)) := by
  intro w other hother
  rcases SymbolStore.mem_names_intern hother with hother | rfl
  · exact Or.inl hother
  · exact Or.inr h

theorem enters_internVariable (p : String → Prop) (name : String) :
    Enters p (Vocabulary.onScope (VariableScope.intern name)) :=
  fun _ _ h => Or.inl h

end Stable

/-! ## 4. What names stand for -/

namespace Vocabulary

variable {w w' : Vocabulary}

section Meaning

variable {name : String} {names : List String}

/-- Whether a name stands for a term. -/
def Means {τ : Type} [Interning τ] (w : Vocabulary τ) (name : String) : Term → Prop
  | .var v => w.scope.find? name = some v
  | .const (.symbol s) => Interning.find? w.symbols name = some s
  | .const (.integer i) => name = i.text

theorem means_internSymbol (h : (onSymbols (SymbolTable.intern name) w).2 ≤ w') :
    w'.Means name (.const (.symbol (onSymbols (SymbolTable.intern name) w).1)) :=
  SymbolTable.find?_of_le h.1 (w.symbols.find?_intern name)

theorem means_internVariable (h : (onScope (VariableScope.intern name) w).2 ≤ w') :
    w'.Means name (.var (onScope (VariableScope.intern name) w).1) :=
  VariableScope.find?_of_le h.2 (w.scope.find?_intern name)

theorem means_atom (h : (atom name w).2 ≤ w') : w'.Means name (.const (atom name w).1) := by
  unfold atom Interning.atom at h ⊢
  cases hi : Integer.ofText? name with
  | some i => exact (Integer.ofText?_eq_some_iff name i).1 hi
  | none =>
    rw [hi] at h
    exact means_internSymbol h

theorem means_term (h : (term name w).2 ≤ w') : w'.Means name (term name w).1 := by
  unfold term at h ⊢
  cases hname : isVariableName name with
  | true =>
    rw [hname] at h
    exact means_internVariable h
  | false =>
    rw [hname] at h
    exact means_atom h

/-- A reading that is followed by another has been made at every time that is later than both. -/
theorem means_tuple (h : (tuple names w).2 ≤ w') : List.Forall₂ w'.Means names (tuple names w).1 := by
  induction names generalizing w with
  | nil => exact List.Forall₂.nil
  | cons name names ih =>
    unfold tuple at h ⊢
    rw [List.mapM_cons] at h ⊢
    have hrest := (stable_tuple names (term name w).2).1
    exact List.Forall₂.cons (means_term (le_trans hrest h)) (ih h)

theorem means_fact {f : Fact} (hf : (onSymbols (SymbolTable.fact names).run w).1 = .ok f)
    (h : (onSymbols (SymbolTable.fact names).run w).2 ≤ w') :
    List.Forall₂ w'.Means names (f.map .const) := by
  induction names generalizing w f with
  | nil =>
    cases hf
    exact List.Forall₂.nil
  | cons name names ih =>
    cases hname : isVariableName name with
    | true =>
      rw [Interning.run_fact_of_variable hname] at hf
      cases hf
    | false =>
      rw [Interning.run_fact_cons hname, onSymbols_bind] at hf h
      have hrest := (stable_fact names (atom name w).2).1
      obtain ⟨g, hg, rfl⟩ := map_eq_ok_iff.1 hf
      exact List.Forall₂.cons (means_atom (le_trans hrest h)) (ih hg h)

end Meaning

/-! ## 5. Calls -/

/-- What a vocabulary can be asked. -/
inductive Call where
  | internSymbol (name : String)
  | internVariable (name : String)
  | atom (name : String)
  | term (name : String)
  | tuple (names : List String)
  | fact (names : List String)

inductive Answer where
  | symbol (s : Symbol)
  | var (v : Variable)
  | atom (a : Atom)
  | term (t : Term)
  | tuple (t : Tuple)
  | fact (f : Except VariableInFact Fact)

namespace Call

/-- The names that a call is about. -/
def names : Call → List String
  | internSymbol name => [name]
  | internVariable name => [name]
  | atom name => [name]
  | term name => [name]
  | tuple names => names
  | fact names => names

def answer {τ : Type} [Interning τ] : Call → StateM (Vocabulary τ) Answer
  | internSymbol name => .symbol <$> onSymbols (Interning.intern name)
  | internVariable name => .var <$> onScope (VariableScope.intern name)
  | atom name => .atom <$> Vocabulary.atom name
  | term name => .term <$> Vocabulary.term name
  | tuple names => .tuple <$> Vocabulary.tuple names
  | fact names => .fact <$> onSymbols (Interning.fact names).run

end Call

/-- The terms that an answer gives to the names of the call. A refused fact gives none. -/
def Answer.terms? : Answer → Option (List Term)
  | symbol s => some [.const (.symbol s)]
  | var v => some [.var v]
  | atom a => some [.const a]
  | term t => some [t]
  | tuple t => some t
  | fact (.ok f) => some (f.map .const)
  | fact (.error _) => none

/-- The vocabulary after some calls. -/
def after (calls : List Call) : Vocabulary :=
  calls.foldl (fun w c => (c.answer w).2) initial

theorem stable_answer (c : Call) : Stable c.answer := by
  cases c with
  | internSymbol name => exact sequential_stable.map (stable_internSymbol name) _
  | internVariable name => exact sequential_stable.map (stable_internVariable name) _
  | atom name => exact sequential_stable.map (stable_atom name) _
  | term name => exact sequential_stable.map (stable_term name) _
  | tuple names => exact sequential_stable.map (stable_tuple names) _
  | fact names => exact sequential_stable.map (stable_fact names) _

theorem means_answer {c : Call} {ts : List Term} (hts : (c.answer w).1.terms? = some ts)
    (h : (c.answer w).2 ≤ w') : List.Forall₂ w'.Means c.names ts := by
  cases c with
  | internSymbol name =>
    cases hts
    exact List.Forall₂.cons (means_internSymbol h) List.Forall₂.nil
  | internVariable name =>
    cases hts
    exact List.Forall₂.cons (means_internVariable h) List.Forall₂.nil
  | atom name =>
    cases hts
    exact List.Forall₂.cons (means_atom h) List.Forall₂.nil
  | term name =>
    cases hts
    exact List.Forall₂.cons (means_term h) List.Forall₂.nil
  | tuple names =>
    cases hts
    exact means_tuple h
  | fact names =>
    cases hf : (onSymbols (SymbolTable.fact names).run w).1 with
    | error e =>
      have hnone : (Answer.fact (onSymbols (SymbolTable.fact names).run w).1).terms? = some ts := hts
      rw [hf] at hnone
      cases hnone
    | ok f =>
      have hsome : (Answer.fact (onSymbols (SymbolTable.fact names).run w).1).terms? = some ts := hts
      rw [hf] at hsome
      cases hsome
      exact means_fact hf h

theorem after_append (calls later : List Call) :
    after (calls ++ later) = later.foldl (fun w c => (c.answer w).2) (after calls) :=
  List.foldl_append

theorem le_foldl (calls : List Call) (w : Vocabulary) :
    w ≤ calls.foldl (fun w c => (c.answer w).2) w := by
  induction calls generalizing w with
  | nil => exact le_refl w
  | cons c calls ih => exact le_trans (stable_answer c w).1 (ih _)

theorem answer_le_after (calls : List Call) (c : Call) (later : List Call) :
    (c.answer (after calls)).2 ≤ after (calls ++ c :: later) := by
  rw [after_append]
  exact le_foldl later _

/-- Only entering a symbol as it is can enter the spelling of an integer, and only that and reading an
atom can enter the name of a variable as a symbol. -/
theorem enters_answer (c : Call) :
    Enters (fun name => c = .internSymbol name ∨
      (∀ i : Integer, name ≠ i.text) ∧ (c = .atom name ∨ isVariableName name = false)) c.answer := by
  cases c with
  | internSymbol name => exact (sequential_enters _).map (enters_internSymbol (Or.inl rfl)) _
  | internVariable name => exact (sequential_enters _).map (enters_internVariable _ name) _
  | atom name =>
    refine (sequential_enters _).map ((sequential_enters _).atom fun hname => ?_) _
    exact enters_internSymbol (Or.inr ⟨hname, Or.inl rfl⟩)
  | term name =>
    refine (sequential_enters _).map ((sequential_enters _).term (fun _ => ?_) fun hv hname => ?_) _
    · exact enters_internVariable _ name
    · exact enters_internSymbol (Or.inr ⟨hname, Or.inr hv⟩)
  | tuple names =>
    refine (sequential_enters _).map
      ((sequential_enters _).tuple (fun name _ _ => ?_) fun name _ hv hname => ?_) _
    · exact enters_internVariable _ name
    · exact enters_internSymbol (Or.inr ⟨hname, Or.inr hv⟩)
  | fact names =>
    refine (sequential_enters _).map ((sequential_enters _).fact fun name _ hv hname => ?_) _
    exact enters_internSymbol (Or.inr ⟨hname, Or.inr hv⟩)

end Vocabulary

end ForwardChaining
